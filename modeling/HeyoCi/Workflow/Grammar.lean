import HeyoCi.Lib.Loop
import HeyoCi.Submit.Trim
import HeyoCi.Workflow.Target

/-!
# The grammar of `uses:`

* `Target.display`: a target as it is printed;
* `Name`, `Rest`, `Form`, `Denotes`: what `uses:` may say, and what it means;
* `parse_ok_iff`: what the code accepts; `StarNetwork`: where that is more;
* `usesParts_intercalate`, `parse_display`: a printed target is read back;
* **`target_grammar_iff`**: the code agrees with the grammar but for a network `*`, and with its own
  printing but for the target of a job without `uses:`.
-/

namespace HeyoCi.Target

open HeyoCi.Text

/-- `Display`. -/
def display (t : Target) : String :=
  if t.isLocal then defaultNode
  else
    let network := t.network.getD "*"
    match t.node, t.vm with
    | some n, some v => s!"{network}/{n}/{v}"
    | some n, none => s!"{network}/{n}"
    | none, _ => s!"{network}/*"

/-! ## The grammar -/

/-- The parts of a path, each of them trimmed. -/
def usesParts (raw : String) : List String :=
  ((trim raw).toList.splitOn '/').map fun part => trim (String.ofList part)

/-- A part that names something. -/
def Name (s : String) : Prop := s ≠ "" ∧ s ≠ "*"

/-- What may follow the network: nothing, `*`, a node, or a node and a VM. -/
inductive Rest : List String → Option String → Option String → Prop
  | nothing : Rest [] none none
  | star : Rest ["*"] none none
  | node {n : String} : Name n → Rest [n] (some n) none
  | vm {n v : String} : Name n → Name v → Rest [n, v] (some n) (some v)

/-- A path names a network. -/
inductive Form : List String → Target → Prop
  | path {network : String} {rest : List String} {node vm : Option String} :
      Name network → Rest rest node vm → Form (network :: rest) ⟨some network, node, vm, false⟩

/-- What a value of `uses:` means. -/
def Denotes (raw : String) (t : Target) : Prop :=
  if eqIgnoreAsciiCase (trim raw) defaultNode then t = ⟨none, none, none, true⟩
  else Form (usesParts raw) t

/-- A path with the network `*`, and nothing wrong behind it. -/
def StarNetwork (raw : String) : Prop :=
  ∃ rest node vm, usesParts raw = "*" :: rest ∧ Rest rest node vm

/-! ## What is accepted -/

/-- What `parse` does with the parts of a path. -/
def readPath (raw : String) (parts : List String) : Except WorkflowError Target :=
  if parts.length > 3 then .error (.usesTooDeep raw)
  else
    let network := parts.headD ""
    if network.isEmpty then .error .emptyUses
    else match parseNode raw parts[1]?, parseVm raw parts[2]? with
      | .error e, _ | .ok _, .error e => .error e
      | .ok none, .ok (some _) => .error (.vmWithoutNode raw)
      | .ok node, .ok vm => .ok ⟨some network, node, vm, false⟩

theorem parse_eq (raw : String) : parse raw =
    if (trim raw).isEmpty then .error .emptyUses
    else if eqIgnoreAsciiCase (trim raw) defaultNode then .ok ⟨none, none, none, true⟩
    else readPath (trim raw) (usesParts raw) := by
  unfold parse usesParts
  dsimp only
  generalize ((trim raw).toList.splitOn '/').map (fun part => trim (String.ofList part)) = parts
  unfold readPath
  generalize parseNode (trim raw) parts[1]? = node
  generalize parseVm (trim raw) parts[2]? = vm
  cases node with
  | error e => rfl
  | ok node => cases node <;> cases vm <;> rfl

theorem parseNode_some {raw n : String} : parseNode raw (some n) =
    if n = "*" then .ok none else if n = "" then .error (.emptyRunner raw) else .ok (some n) := by
  unfold parseNode
  split <;> simp_all

theorem parseVm_some {raw v : String} : parseVm raw (some v) =
    if v = "" ∨ v = "*" then .error (.emptyRunner raw) else .ok (some v) := by
  unfold parseVm
  split <;> simp_all

theorem readPath_one {raw network : String} : readPath raw [network] =
    if network.isEmpty then .error .emptyUses else .ok ⟨some network, none, none, false⟩ := rfl

theorem readPath_two {raw network n : String} : readPath raw [network, n] =
    if network.isEmpty then .error .emptyUses
    else (parseNode raw (some n)).map fun node => ⟨some network, node, none, false⟩ := by
  unfold readPath
  dsimp only [List.length, List.headD, List.getElem?_cons_succ, List.getElem?_cons_zero]
  cases parseNode raw (some n) with
  | error e => rfl
  | ok node => cases node <;> rfl

theorem readPath_three {raw network n v : String} : readPath raw [network, n, v] =
    if network.isEmpty then .error .emptyUses
    else match parseNode raw (some n), parseVm raw (some v) with
      | .error e, _ | .ok _, .error e => .error e
      | .ok none, .ok (some _) => .error (.vmWithoutNode raw)
      | .ok node, .ok vm => .ok ⟨some network, node, vm, false⟩ := rfl

/-- **The paths that are accepted**, with any network that is not empty. -/
theorem readPath_ok_iff {raw : String} {parts : List String} {t : Target} :
    readPath raw parts = .ok t ↔ ∃ network rest node vm, parts = network :: rest ∧ network ≠ "" ∧
      Rest rest node vm ∧ t = ⟨some network, node, vm, false⟩ := by
  constructor
  · intro h
    match parts with
    | [] => cases h
    | [network] =>
      rw [readPath_one, Loop.guard_ok_iff] at h
      obtain ⟨hne, h⟩ := h
      cases h
      exact ⟨network, [], none, none, rfl, by simpa using hne, .nothing, rfl⟩
    | [network, n] =>
      rw [readPath_two, Loop.guard_ok_iff, parseNode_some] at h
      obtain ⟨hne, h⟩ := h
      refine ⟨network, [n], ?_⟩
      split_ifs at h with hstar hempty
      · cases h
        exact ⟨none, none, rfl, by simpa using hne, hstar ▸ .star, rfl⟩
      · cases h
      · cases h
        exact ⟨some n, none, rfl, by simpa using hne, .node ⟨hempty, hstar⟩, rfl⟩
    | [network, n, v] =>
      rw [readPath_three, Loop.guard_ok_iff, parseNode_some, parseVm_some] at h
      obtain ⟨hne, h⟩ := h
      refine ⟨network, [n, v], ?_⟩
      split_ifs at h with hstar hv hempty hv
      · cases h
        obtain ⟨hv, hv'⟩ := not_or.mp hv
        exact ⟨some n, some v, rfl, by simpa using hne, .vm ⟨hempty, hstar⟩ ⟨hv, hv'⟩, rfl⟩
    | _ :: _ :: _ :: _ :: _ =>
      rw [readPath, if_pos (by simp)] at h
      cases h
  · rintro ⟨network, rest, node, vm, rfl, hnetwork, hrest, rfl⟩
    have hne : ¬ network.isEmpty = true := by simpa using hnetwork
    cases hrest with
    | nothing => rw [readPath_one, if_neg hne]
    | star =>
      rw [readPath_two, if_neg hne, parseNode_some, if_pos rfl]
      rfl
    | node hn =>
      rw [readPath_two, if_neg hne, parseNode_some, if_neg hn.2, if_neg hn.1]
      rfl
    | vm hn hv =>
      rw [readPath_three, if_neg hne, parseNode_some, if_neg hn.2, if_neg hn.1, parseVm_some,
        if_neg (not_or.mpr hv)]

theorem parse_ok_iff {raw : String} {t : Target} : parse raw = .ok t ↔
    if eqIgnoreAsciiCase (trim raw) defaultNode then t = ⟨none, none, none, true⟩
    else ∃ network rest node vm, usesParts raw = network :: rest ∧ network ≠ "" ∧
      Rest rest node vm ∧ t = ⟨some network, node, vm, false⟩ := by
  rw [parse_eq]
  by_cases hempty : (trim raw).isEmpty
  · have hnil : trim raw = "" := String.isEmpty_iff.mp hempty
    have hparts : usesParts raw = [""] := by
      rw [usesParts, hnil]
      decide +kernel
    have hdefault : eqIgnoreAsciiCase "" defaultNode = false := by decide
    rw [if_pos hempty, hnil, hdefault, if_neg Bool.false_ne_true, hparts]
    constructor
    · intro h
      cases h
    · rintro ⟨network, rest, node, vm, heq, hne, -⟩
      exact absurd (List.cons_eq_cons.mp heq).1.symm hne
  · rw [if_neg hempty]
    split
    · rw [Except.ok.injEq, eq_comm]
    · rw [readPath_ok_iff]

/-- A text with a separator is not the word for the own host. -/
theorem not_default_of_slash {s : String} (h : '/' ∈ s.toList) :
    eqIgnoreAsciiCase s defaultNode = false := by
  rw [eqIgnoreAsciiCase, decide_eq_false_iff_not]
  intro heq
  have hmem : ('/' : Char).toLower ∈ s.toList.map Char.toLower := List.mem_map_of_mem h
  rw [heq] at hmem
  revert hmem
  decide

theorem not_starNetwork_of_default {raw : String}
    (h : eqIgnoreAsciiCase (trim raw) defaultNode = true) : ¬ StarNetwork raw := by
  rintro ⟨rest, node, vm, hparts, -⟩
  have hslash : '/' ∉ (trim raw).toList := fun hmem => by
    rw [not_default_of_slash hmem] at h
    cases h
  rw [usesParts, List.splitOn_eq_singleton hslash, List.map_singleton, String.ofList_toList,
    trim_trim] at hparts
  rw [(List.cons_eq_cons.mp hparts).1] at h
  revert h
  decide

/-- A value of `uses:` is read as it is meant if and only if its network is not `*`. -/
theorem parse_denotes_iff (raw : String) :
    (∀ t, parse raw = .ok t ↔ Denotes raw t) ↔ ¬ StarNetwork raw := by
  simp only [parse_ok_iff, Denotes]
  by_cases hdefault : eqIgnoreAsciiCase (trim raw) defaultNode = true
  · simp only [if_pos hdefault, implies_true, true_iff]
    exact not_starNetwork_of_default hdefault
  · simp only [if_neg hdefault]
    constructor
    · rintro hall ⟨rest, node, vm, hparts, hrest⟩
      have hform := (hall ⟨some "*", node, vm, false⟩).mp
        ⟨"*", rest, node, vm, hparts, by decide, hrest, rfl⟩
      rw [hparts] at hform
      cases hform with
      | path hname _ => exact hname.2 rfl
    · intro hstar t
      constructor
      · rintro ⟨network, rest, node, vm, hparts, hne, hrest, rfl⟩
        rw [hparts]
        refine .path ⟨hne, ?_⟩ hrest
        rintro rfl
        exact hstar ⟨rest, node, vm, hparts, hrest⟩
      · intro hform
        cases hparts : usesParts raw with
        | nil =>
          rw [hparts] at hform
          cases hform
        | cons network rest =>
          rw [hparts] at hform
          cases hform with
          | path hname hrest => exact ⟨network, rest, _, _, rfl, hname.1, hrest, rfl⟩

/-! ## Printing -/

/-- The targets of the code: those it reads, and that of a job without `uses:`. -/
inductive Constructed : Target → Prop
  | parsed {raw : String} {t : Target} : parse raw = .ok t → Constructed t
  | any : Constructed any

theorem mem_usesParts {raw p : String} (h : p ∈ usesParts raw) :
    '/' ∉ p.toList ∧ Trimmed p.toList := mem_trimmedParts h

theorem usesParts_intercalate {ps : List String} (hne : ps ≠ [])
    (h : ∀ p ∈ ps, '/' ∉ p.toList ∧ Trimmed p.toList) :
    usesParts (String.ofList (['/'].intercalate (ps.map String.toList))) = ps :=
  trimmedParts_intercalate (by decide) hne h

/-- A path that is put together is read as its parts. -/
theorem parse_intercalate {network : String} {rest : List String} {node vm : Option String}
    (hne : network ≠ "") (hrest : Rest rest node vm) (hnil : rest ≠ [])
    (h : ∀ p ∈ network :: rest, '/' ∉ p.toList ∧ Trimmed p.toList) :
    parse (String.ofList (['/'].intercalate ((network :: rest).map String.toList))) =
      .ok ⟨some network, node, vm, false⟩ := by
  have hparts := usesParts_intercalate (List.cons_ne_nil network rest) h
  have hslash : '/' ∈ (trim (String.ofList
      (['/'].intercalate ((network :: rest).map String.toList)))).toList := by
    by_contra hnot
    rw [usesParts, List.splitOn_eq_singleton hnot] at hparts
    exact hnil (List.cons_eq_cons.mp hparts).2.symm
  rw [parse_ok_iff, not_default_of_slash hslash, if_neg Bool.false_ne_true, hparts]
  exact ⟨network, rest, node, vm, rfl, hne, hrest, rfl⟩

theorem display_path (network : String) (node vm : Option String) :
    display ⟨some network, node, vm, false⟩ = match node, vm with
      | some n, some v => network ++ "/" ++ n ++ "/" ++ v
      | some n, none => network ++ "/" ++ n
      | none, _ => network ++ "/*" := by
  cases node <;> cases vm <;> rfl

/-- **A target that was read is printed as it would be read.** -/
theorem parse_display {raw : String} {t : Target} (h : parse raw = .ok t) :
    parse t.display = .ok t := by
  rw [parse_ok_iff] at h
  split_ifs at h
  · subst h
    rw [parse_ok_iff, if_pos (by decide)]
  · obtain ⟨network, rest, node, vm, hparts, hne, hrest, rfl⟩ := h
    have hmem : ∀ p ∈ network :: rest, '/' ∉ p.toList ∧ Trimmed p.toList := by
      intro p hp
      rw [← hparts] at hp
      exact mem_usesParts hp
    have hprint : ∀ rest', Rest rest' node vm → rest' ≠ [] →
        (∀ p ∈ rest', '/' ∉ p.toList ∧ Trimmed p.toList) →
        (display ⟨some network, node, vm, false⟩).toList =
          ['/'].intercalate ((network :: rest').map String.toList) →
        parse (display ⟨some network, node, vm, false⟩) = .ok ⟨some network, node, vm, false⟩ := by
      intro rest' hrest' hnil hmem' heq
      rw [← String.ofList_toList (s := display _), heq]
      refine parse_intercalate hne hrest' hnil ?_
      exact List.forall_mem_cons.mpr ⟨hmem network List.mem_cons_self, hmem'⟩
    have hstar : ∀ p ∈ ["*"], '/' ∉ p.toList ∧ Trimmed p.toList := by
      intro p hp
      obtain rfl := List.mem_singleton.mp hp
      refine ⟨by decide, ?_, ?_⟩ <;> rintro c hc <;> cases hc <;> decide
    cases hrest with
    | nothing => exact hprint ["*"] .star (by simp) hstar (by simp [display_path])
    | star => exact hprint ["*"] .star (by simp) hstar (by simp [display_path])
    | @node n hn =>
      refine hprint [n] (.node hn) (by simp) (fun p hp => hmem p (List.mem_cons_of_mem _ hp)) ?_
      simp [display_path]
    | @vm n v hn hv =>
      refine hprint [n, v] (.vm hn hv) (by simp) (fun p hp => hmem p (List.mem_cons_of_mem _ hp)) ?_
      simp [display_path]

theorem parse_display_any : parse any.display = .ok ⟨some "*", none, none, false⟩ :=
  Loop.ok_of_toOption (by decide)

/-- **The code reads what the grammar says but for a network `*`, and reads back what it prints but for
the target of a job without `uses:`.** -/
theorem target_grammar_iff (raw : String) (t : Target) :
    ((∀ u, parse raw = .ok u ↔ Denotes raw u) ↔ ¬ StarNetwork raw) ∧
      (Constructed t → (parse t.display = .ok t ↔ t ≠ any)) := by
  refine ⟨parse_denotes_iff raw, ?_⟩
  intro ht
  cases ht with
  | parsed h =>
    refine iff_of_true (parse_display h) ?_
    rintro rfl
    rw [parse_ok_iff] at h
    split_ifs at h
    · cases h
    · obtain ⟨_, _, _, _, -, -, -, h⟩ := h
      cases h
  | any =>
    refine iff_of_false (fun h => ?_) fun hne => hne rfl
    rw [parse_display_any] at h
    cases h

/-- A network `*` is accepted, and is what the target of a job without `uses:` is printed as. -/
theorem star_network_accepted : (¬ ∀ raw t, parse raw = .ok t ↔ Denotes raw t) ∧
    ¬ ∀ t, Constructed t → parse t.display = .ok t := by
  constructor
  · intro hall
    have hparts : usesParts "*" = ["*"] := by decide
    exact (parse_denotes_iff "*").mp (hall "*") ⟨[], none, none, hparts, .nothing⟩
  · intro hall
    have h := hall any .any
    rw [parse_display_any] at h
    cases h

end HeyoCi.Target
