import HeyoCi.Lib.Choice
import HeyoCi.Runners

/-!
# The daemons of the account

The control plane lists them in no order that means anything, and two may have one name.

* `DaemonInfo`, `PickError`, `pickDaemon`: the daemon a name or an id refers to; `resolveDefaultNode`:
  the one `uses: default` means;
* `pickDaemon_ok_iff`: which daemon is picked; `SameAnswer`, `pickDaemon_perm`: in any order;
* **`pickDaemon_unordered`**: an id wins, and of several with one name only the live one is picked.
-/

namespace HeyoCi

inductive DaemonStatus where
  | online
  | stale
  | offline
  deriving Repr, DecidableEq

/-- A row of `GET /me/daemons`. -/
structure DaemonInfo where
  id : String
  name : Option String
  status : DaemonStatus
  deriving Repr, DecidableEq

inductive PickError where
  | noMatch
  | ambiguous (candidates : List String)
  deriving Repr, DecidableEq

/-- What `GET /daemon/name` answers. -/
structure DaemonName where
  backendId : Option String
  name : Option String

section Pick

variable (statusText : DaemonStatus → String)

/-- What an ambiguous answer says of a daemon. -/
def DaemonInfo.candidate (d : DaemonInfo) : String := s!"{d.id} ({statusText d.status})"

/-- The daemon among those of one name: the only one, or the only live one. -/
def pickNamed : List DaemonInfo → Except PickError DaemonInfo
  | [] => .error .noMatch
  | [one] => .ok one
  | byName => match byName.filter (·.status = .online) with
    | [live] => .ok live
    | _ => .error (.ambiguous (byName.map (·.candidate statusText)))

/-- The daemon a name or an id refers to. -/
def pickDaemon (daemons : List DaemonInfo) (wanted : String) : Except PickError DaemonInfo :=
  match daemons.find? (·.id = wanted) with
  | some exact => .ok exact
  | none => pickNamed statusText (daemons.filter (·.name = some wanted))

/-- The id of the picked daemon, and nothing where there is none. -/
def pickedId (daemons : List DaemonInfo) (wanted : String) : String :=
  match pickDaemon statusText daemons wanted with
  | .ok d => d.id
  | .error _ => ""

/-- The daemon that `uses: default` means: what is configured, what the disk says, what the local daemon
says. -/
def resolveDefaultNode (configured onDisk : Option String) (probe : Option DaemonName)
    (daemons : List DaemonInfo) : String :=
  match configured with
  | some wanted => pickedId statusText daemons (Text.trim wanted)
  | none =>
    let known := fun id => daemons.any (·.id = id)
    let said := fun s => !(Text.trim s).isEmpty
    (onDisk.filter known <|> (probe.bind (·.backendId)).filter fun id => said id && known id).getD <|
      match (probe.bind (·.name)).filter said with
      | some name => pickedId statusText daemons name
      | none => ""

end Pick

/-! ## Which daemon is picked -/

variable {statusText : DaemonStatus → String} {daemons : List DaemonInfo} {wanted : String}

theorem pickNamed_ok_iff {byName : List DaemonInfo} {d : DaemonInfo} :
    pickNamed statusText byName = .ok d ↔
      byName = [d] ∨ 2 ≤ byName.length ∧ byName.filter (·.status = .online) = [d] := by
  match byName with
  | [] => simp [pickNamed]
  | [one] => simp [pickNamed]
  | one :: two :: rest =>
    rw [pickNamed]
    · split
      · rename_i live hlive
        simp [hlive]
      · rename_i hne
        simpa using fun h => hne d h
    · simp
    · simp

theorem pickNamed_ambiguous {byName : List DaemonInfo} (hlen : 2 ≤ byName.length)
    (hlive : ∀ d, byName.filter (·.status = .online) ≠ [d]) : pickNamed statusText byName =
      .error (.ambiguous (byName.map (·.candidate statusText))) := by
  match byName with
  | [] => simp at hlen
  | [_] => simp at hlen
  | one :: two :: rest =>
    rw [pickNamed]
    · split
      · rename_i live heq
        exact absurd heq (hlive live)
      · rfl
    · simp
    · simp

/-- **The daemon with the id, or the only one with the name, or the only live one with the name.** -/
theorem pickDaemon_ok_iff (hids : (daemons.map (·.id)).Nodup) {d : DaemonInfo} :
    pickDaemon statusText daemons wanted = .ok d ↔ d ∈ daemons ∧ (d.id = wanted ∨
      (∀ e ∈ daemons, e.id ≠ wanted) ∧ d.name = some wanted ∧
        ((∀ e ∈ daemons, e.name = some wanted → e = d) ∨
          d.status = .online ∧ ∀ e ∈ daemons, e.name = some wanted → e.status = .online → e = d)) := by
  have hnodup : daemons.Nodup := hids.of_map
  rw [pickDaemon]
  cases hfind : daemons.find? (·.id = wanted) with
  | some exact =>
    have hmem := List.mem_of_find?_eq_some hfind
    have hid : exact.id = wanted := by simpa using List.find?_some hfind
    constructor
    · intro h
      cases h
      exact ⟨hmem, Or.inl hid⟩
    · rintro ⟨hd, hcase⟩
      rcases hcase with heq | ⟨hnone, -⟩
      · rw [List.inj_on_of_nodup_map hids hmem hd (hid.trans heq.symm)]
      · exact absurd hid (hnone exact hmem)
  | none =>
    have hnone : ∀ e ∈ daemons, e.id ≠ wanted := by simpa using hfind
    dsimp only
    rw [pickNamed_ok_iff, Choice.filter_eq_singleton_iff hnodup, List.filter_filter,
      Choice.filter_eq_singleton_iff hnodup]
    simp only [decide_eq_true_eq, Bool.and_eq_true]
    constructor
    · rintro (⟨hd, hname, hall⟩ | ⟨-, hd, ⟨hlive, hname⟩, hall⟩)
      · exact ⟨hd, Or.inr ⟨hnone, hname, Or.inl hall⟩⟩
      · exact ⟨hd, Or.inr ⟨hnone, hname, Or.inr ⟨hlive, fun e he hn ho => hall e he ⟨ho, hn⟩⟩⟩⟩
    · rintro ⟨hd, hcase⟩
      rcases hcase with heq | ⟨-, hname, hall⟩
      · exact absurd heq (hnone d hd)
      by_cases hlone : ∀ e ∈ daemons, e.name = some wanted → e = d
      · exact Or.inl ⟨hd, hname, hlone⟩
      · obtain ⟨hlive, honly⟩ := hall.resolve_left hlone
        simp only [not_forall] at hlone
        obtain ⟨e, he, hn, hne⟩ := hlone
        refine Or.inr ⟨Choice.two_le_length (a := e) (b := d) ?_ ?_ hne, hd, ⟨hlive, hname⟩, ?_⟩
        · exact List.mem_filter.mpr ⟨he, decide_eq_true hn⟩
        · exact List.mem_filter.mpr ⟨hd, decide_eq_true hname⟩
        · rintro e he ⟨ho, hn⟩
          exact honly e he hn ho

/-! ## Any order -/

/-- The same daemon, or the same candidates in some order. -/
inductive SameAnswer : Except PickError DaemonInfo → Except PickError DaemonInfo → Prop
  | picked (d : DaemonInfo) : SameAnswer (.ok d) (.ok d)
  | noMatch : SameAnswer (.error .noMatch) (.error .noMatch)
  | ambiguous {cs cs' : List String} : cs.Perm cs' →
      SameAnswer (.error (.ambiguous cs)) (.error (.ambiguous cs'))

theorem pickNamed_perm {byName byName' : List DaemonInfo} (h : byName'.Perm byName) :
    SameAnswer (pickNamed statusText byName') (pickNamed statusText byName) := by
  match byName with
  | [] =>
    rw [List.perm_nil.mp h]
    exact .noMatch
  | [one] =>
    rw [List.perm_singleton.mp h]
    exact .picked one
  | one :: two :: rest =>
    have hlen : 2 ≤ (one :: two :: rest).length := by simp
    have hlen' : 2 ≤ byName'.length := by rwa [h.length_eq]
    have hfilter := h.filter (·.status = .online)
    by_cases hlive : ∃ d, (one :: two :: rest).filter (·.status = .online) = [d]
    · obtain ⟨d, hd⟩ := hlive
      rw [hd, List.perm_singleton] at hfilter
      rw [pickNamed_ok_iff.mpr (Or.inr ⟨hlen, hd⟩), pickNamed_ok_iff.mpr (Or.inr ⟨hlen', hfilter⟩)]
      exact .picked d
    · rw [not_exists] at hlive
      rw [pickNamed_ambiguous hlen hlive, pickNamed_ambiguous hlen' fun d hd => ?_]
      · exact .ambiguous (h.map _)
      · rw [hd, List.singleton_perm] at hfilter
        exact hlive d hfilter.symm

theorem pickDaemon_perm (hids : (daemons.map (·.id)).Nodup) {daemons' : List DaemonInfo}
    (h : daemons'.Perm daemons) :
    SameAnswer (pickDaemon statusText daemons' wanted) (pickDaemon statusText daemons wanted) := by
  have hone : Choice.AtMostOne (fun e : DaemonInfo => decide (e.id = wanted)) daemons :=
    Choice.atMostOne_of_nodup_map hids fun a b ha hb =>
      (of_decide_eq_true ha).trans (of_decide_eq_true hb).symm
  rw [pickDaemon, pickDaemon, Choice.find?_perm hone h]
  cases daemons.find? (·.id = wanted) with
  | some exact => exact .picked exact
  | none => exact pickNamed_perm (h.filter _)

theorem pickedId_perm (hids : (daemons.map (·.id)).Nodup) {daemons' : List DaemonInfo}
    (h : daemons'.Perm daemons) :
    pickedId statusText daemons' wanted = pickedId statusText daemons wanted := by
  have hsame := @pickDaemon_perm statusText daemons wanted hids daemons' h
  rw [pickedId, pickedId]
  revert hsame
  generalize pickDaemon statusText daemons' wanted = r'
  generalize pickDaemon statusText daemons wanted = r
  intro hsame
  cases hsame <;> rfl

/-- The own host does not depend on how the control plane lists the daemons. -/
theorem resolveDefaultNode_perm (hids : (daemons.map (·.id)).Nodup) {daemons' : List DaemonInfo}
    (h : daemons'.Perm daemons) (configured onDisk : Option String) (probe : Option DaemonName) :
    resolveDefaultNode statusText configured onDisk probe daemons' =
      resolveDefaultNode statusText configured onDisk probe daemons := by
  have hknown : ∀ id, daemons'.any (·.id = id) = daemons.any (·.id = id) := fun id => h.any_eq
  have hpick : ∀ wanted, pickedId statusText daemons' wanted = pickedId statusText daemons wanted :=
    fun wanted => pickedId_perm hids h
  unfold resolveDefaultNode
  simp only [hknown, hpick]

/-- **The answer does not depend on the order of the list, an id wins, and of several daemons with the
name only the one that is live is picked.** -/
theorem pickDaemon_unordered (statusText : DaemonStatus → String) (daemons : List DaemonInfo)
    (wanted : String) (hids : (daemons.map (·.id)).Nodup) :
    (∀ daemons' : List DaemonInfo, daemons'.Perm daemons →
      SameAnswer (pickDaemon statusText daemons' wanted) (pickDaemon statusText daemons wanted)) ∧
    (∀ d ∈ daemons, d.id = wanted → pickDaemon statusText daemons wanted = .ok d) ∧
    ∀ d₁ ∈ daemons, ∀ d₂ ∈ daemons, d₁ ≠ d₂ → d₁.name = some wanted → d₂.name = some wanted →
      ∀ d, pickDaemon statusText daemons wanted = .ok d → d.id = wanted ∨
        d ∈ daemons ∧ d.name = some wanted ∧ d.status = .online ∧
          ∀ e ∈ daemons, e.name = some wanted → e.status = .online → e = d := by
  refine ⟨fun daemons' h => pickDaemon_perm hids h, fun d hd hid => ?_, ?_⟩
  · exact (pickDaemon_ok_iff hids).mpr ⟨hd, Or.inl hid⟩
  · intro d₁ h₁ d₂ h₂ hne hname₁ hname₂ d hpick
    obtain ⟨hd, hcase⟩ := (pickDaemon_ok_iff hids).mp hpick
    rcases hcase with hid | ⟨-, hname, hall⟩
    · exact Or.inl hid
    · have hlive := hall.resolve_left fun h => hne ((h d₁ h₁ hname₁).trans (h d₂ h₂ hname₂).symm)
      exact Or.inr ⟨hd, hname, hlive⟩

/-! ## A machine that registered twice -/

/-- What `{:?}` writes. -/
private def DaemonStatus.debug : DaemonStatus → String
  | online => "Online"
  | stale => "Stale"
  | offline => "Offline"

private def oldRow : DaemonInfo := ⟨"hd-old", some "box", .offline⟩

private def newRow : DaemonInfo := ⟨"hd-new", some "box", .online⟩

/-- It leaves a dead row with its name, and the live one is picked. -/
theorem live_twin_picked : pickDaemon DaemonStatus.debug [newRow, oldRow] "box" = .ok newRow ∧
    SameAnswer (pickDaemon DaemonStatus.debug [newRow, oldRow] "box")
      (pickDaemon DaemonStatus.debug [oldRow, newRow] "box") :=
  ⟨rfl, (pickDaemon_unordered DaemonStatus.debug [oldRow, newRow] "box" (by decide)).1 _ (.swap _ _ _)⟩

end HeyoCi
