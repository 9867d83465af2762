import HeyoCi.Warm.Guest
import HeyoCi.Warm.Leak

/-!
# Whose tree a step finds

The id of a command names the run, the job and the step, and not the attempt. A redelivered job that
comes back to a VM finds its old checkout recorded there, whatever the VM was used for in between.

* `Ran`: the commands of a job were run in order, and nobody else's since the first of them;
* `Guests.OwnTree`: a step's command runs after the whole checkout of its own job;
* `Guests.Fresh`, `Guests.Alone`: no command of another job since a record that is reused, and beside
  an execution;
* `Kept`: the invariant; `Kept.fleet`, `Kept.guest`, `Kept.step`;
* **`ownTree_of_fresh`**: a run with both runs every step in its own tree;
* `redelivered`, `foreign_tree`: a run that does not.
-/

namespace HeyoCi

/-- These commands of a job, the latest first, were run in a sandbox with success, and since the first
of them only commands of that job. -/
inductive Ran (sandbox jobId : String) : List GuestOp → List GuestEvent → Prop
  | nil (history : List GuestEvent) : Ran sandbox jobId [] history
  | run {ops : List GuestOp} {history : List GuestEvent} (op : GuestOp) (h : Ran sandbox jobId ops history) :
      Ran sandbox jobId (op :: ops) (⟨sandbox, jobId, op, true⟩ :: history)
  | keep {ops : List GuestOp} {history : List GuestEvent} (e : GuestEvent)
      (he : e.sandbox = sandbox → e.jobId = jobId) (h : Ran sandbox jobId ops history) :
      Ran sandbox jobId ops (e :: history)

theorem Ran.keepAll {sandbox jobId : String} {ops : List GuestOp} {history after : List GuestEvent}
    (ha : ∀ e ∈ after, e.sandbox = sandbox → e.jobId = jobId) (h : Ran sandbox jobId ops history) :
    Ran sandbox jobId ops (after ++ history) := by
  induction after with
  | nil => exact h
  | cons e after ih =>
    exact .keep e (ha e List.mem_cons_self) (ih fun e' he' => ha e' (List.mem_cons_of_mem e he'))

/-- The latest command in the sandbox is one of the job. -/
theorem Ran.head {sandbox jobId : String} {op : GuestOp} {ops : List GuestOp} {e : GuestEvent}
    {history : List GuestEvent} (h : Ran sandbox jobId (op :: ops) (e :: history))
    (he : e.sandbox = sandbox) : e.jobId = jobId := by
  cases h with
  | run => rfl
  | keep _ hkeep => exact hkeep he

namespace Guests

variable (size : String → Nat) (w : Guests)

/-- The command a step runs. -/
def runs : GuestAct → Option GuestEvent
  | .fleet _ => none
  | .guest i r => w.fleet.attempts[i]?.bind fun x => x.pc.stepsIn.bind fun s =>
      (w.ran s x.job.id (w.calls size x) r).join

/-- A step's command finds the tree of its own job: the whole checkout was run in the VM, and no
command of another job since. -/
def OwnTree (a : GuestAct) : Prop := ∀ e ∈ w.runs size a, e.op.ofStep = true →
  Ran e.sandbox e.jobId (checkoutOps (size e.jobId)).reverse w.history

/-- A record of the checkout that an execution goes on with is not older than the last command of
another job in the VM. -/
def Fresh : GuestAct → Prop
  | .guest i (.done true) => ∀ x ∈ w.fleet.attempts[i]?, ∀ s ∈ x.pc.stepsIn, ∀ op ∈ w.calls size x,
      op.ofStep = false → (recordOf w.history s (op.id x.job.id)).isSome = true →
        ∀ e ∈ since w.history s (op.id x.job.id), e.sandbox = s → e.jobId = x.job.id
  | _ => True

/-- A command runs in a VM where no other job is in its steps. -/
def Alone (a : GuestAct) : Prop := ∀ e ∈ w.runs size a, ∀ y ∈ w.fleet.attempts,
  y.pc = .steps e.sandbox → y.job.id = e.jobId

instance (a : GuestAct) : Decidable (w.Fresh size a) := match a with
  | .guest i (.done true) => inferInstanceAs (Decidable (∀ x ∈ w.fleet.attempts[i]?,
      ∀ s ∈ x.pc.stepsIn, ∀ op ∈ w.calls size x, op.ofStep = false →
        (recordOf w.history s (op.id x.job.id)).isSome = true →
          ∀ e ∈ since w.history s (op.id x.job.id), e.sandbox = s → e.jobId = x.job.id))
  | .fleet _ | .guest _ (.done false) | .guest _ (.failed _) | .guest _ .skip | .guest _ .stop =>
    .isTrue trivial

instance (a : GuestAct) : Decidable (w.Alone size a) :=
  inferInstanceAs (Decidable (∀ e ∈ w.runs size a, ∀ y ∈ w.fleet.attempts,
    y.pc = .steps e.sandbox → y.job.id = e.jobId))

end Guests

/-! ## The invariant -/

section Kept

variable (size : String → Nat)

/-- Every command of a checkout was run after those before it. -/
def InOrder : List GuestEvent → Prop
  | [] => True
  | e :: history => (∀ k, (checkoutOps (size e.jobId))[k]? = some e.op →
      Ran e.sandbox e.jobId ((checkoutOps (size e.jobId)).take k).reverse history) ∧ InOrder history

/-- What an execution has had run when it is at a place. -/
def Reached (sandbox jobId : String) (history : List GuestEvent) : GuestPc → Prop
  | .checkout k => Ran sandbox jobId ((checkoutOps (size jobId)).take k).reverse history
  | .step _ => Ran sandbox jobId (checkoutOps (size jobId)).reverse history
  | .finished => True

/-- **The invariant.** -/
structure Kept (w : Guests) : Prop where
  inOrder : InOrder size w.history
  reached : ∀ x ∈ w.fleet.attempts, ∀ s, x.pc = .steps s →
    Reached size s x.job.id w.history (w.place x.client)

end Kept

section Step

variable {size : String → Nat}

theorem InOrder.split {after history : List GuestEvent} {e : GuestEvent}
    (h : InOrder size (after ++ e :: history)) {k : Nat}
    (hk : (checkoutOps (size e.jobId))[k]? = some e.op) :
    Ran e.sandbox e.jobId ((checkoutOps (size e.jobId)).take k).reverse history := by
  induction after with
  | nil => exact h.1 k hk
  | cons _ after ih => exact ih h.2

theorem nodup_checkoutOps (n : Nat) : (checkoutOps n).Nodup := by
  rw [checkoutOps, List.nodup_append]
  refine ⟨List.nodup_range.map fun i j h => GuestOp.upload.inj h, by decide, fun a ha b hb => ?_⟩
  obtain ⟨i, -, rfl⟩ := List.mem_map.mp ha
  rcases List.mem_cons.mp hb with rfl | hb
  · exact GuestOp.noConfusion
  · rw [List.mem_singleton.mp hb]
    exact GuestOp.noConfusion

theorem not_ofStep_checkoutOps {n : Nat} {op : GuestOp} (h : op ∈ checkoutOps n) :
    op.ofStep = false := by
  rcases List.mem_append.mp h with h | h
  · obtain ⟨i, -, rfl⟩ := List.mem_map.mp h
    rfl
  · rcases List.mem_cons.mp h with rfl | h
    · rfl
    · rw [List.mem_singleton.mp h]
      rfl

/-- The commands up to and with the `k`-th. -/
theorem reverse_take_succ {l : List GuestOp} {k : Nat} {op : GuestOp} (h : l[k]? = some op) :
    (l.take (k + 1)).reverse = op :: (l.take k).reverse := by
  rw [List.take_add_one, h, Option.toList_some, List.reverse_append, List.reverse_singleton,
    List.singleton_append]

/-- A command of another sandbox or of the same job leaves an execution where it is. -/
theorem Reached.keep {sandbox jobId : String} {history : List GuestEvent} {pc : GuestPc}
    (h : Reached size sandbox jobId history pc) {e : Option GuestEvent}
    (he : ∀ e' ∈ e, e'.sandbox = sandbox → e'.jobId = jobId) :
    Reached size sandbox jobId (e.toList ++ history) pc := by
  have hall : ∀ e' ∈ e.toList, e'.sandbox = sandbox → e'.jobId = jobId := fun e' he' =>
    he e' (Option.mem_toList.mp he')
  cases pc with
  | checkout k => exact Ran.keepAll hall h
  | step idx => exact Ran.keepAll hall h
  | finished => trivial

theorem GuestPc.op_of_step {plan : JobPlan} {n idx : Nat} {o : GuestOp}
    (h : (GuestPc.step idx).op plan n = some o) : o.ofStep = true := by
  obtain ⟨s, -, h⟩ := Option.bind_eq_some_iff.mp h
  split_ifs at h <;> cases h <;> rfl

section Call

variable {w : Guests} {x : Attempt} {s : String} {r : GuestReply} {p : GuestPc} {e : Option GuestEvent}
  (h : Reached size s x.job.id w.history (w.place x.client))
  (he : w.ran s x.job.id (w.calls size x) r = some e)

include h he

/-- A command that is run is in its order. -/
theorem Reached.inOrder (hw : InOrder size w.history) : InOrder size (e.toList ++ w.history) := by
  rcases Guests.ran_cases he with ⟨o, ok, ho, -, rfl, -⟩ | ⟨rfl, -⟩
  · refine ⟨fun k hk => ?_, hw⟩
    change (checkoutOps (size x.job.id))[k]? = some o at hk
    rw [Guests.calls] at ho
    generalize w.place x.client = pc at h ho
    cases pc with
    | checkout k' =>
      have hlt : k' < (checkoutOps (size x.job.id)).length := (List.getElem?_eq_some_iff.mp ho).1
      obtain rfl := (List.getElem?_inj hlt (nodup_checkoutOps _)).mp (ho.trans hk.symm)
      exact h
    | step idx =>
      have hstep := GuestPc.op_of_step ho
      rw [not_ofStep_checkoutOps (List.mem_of_getElem? hk)] at hstep
      cases hstep
    | finished => cases ho
  · exact hw

/-- The `k`-th command of a checkout was run, now or when its record was made. -/
theorem Reached.done (hw : InOrder size w.history) {k : Nat} (hpc : w.place x.client = .checkout k)
    (hr : r = .done true)
    (hfresh : ∀ op ∈ w.calls size x, op.ofStep = false →
      (recordOf w.history s (op.id x.job.id)).isSome = true →
        ∀ e ∈ since w.history s (op.id x.job.id), e.sandbox = s → e.jobId = x.job.id) :
    Ran s x.job.id ((checkoutOps (size x.job.id)).take (k + 1)).reverse (e.toList ++ w.history) := by
  rw [hpc] at h
  have hcalls : w.calls size x = (checkoutOps (size x.job.id))[k]? := by
    rw [Guests.calls, hpc]
    rfl
  rcases Guests.ran_cases he with ⟨o, ok, ho, -, rfl, hok⟩ | ⟨rfl, hrec⟩
  · obtain rfl := hok true hr
    rw [reverse_take_succ (hcalls.symm.trans ho)]
    exact .run o h
  · obtain ⟨o, e', ho, hfound, hok⟩ := hrec true hr
    have hk := hcalls.symm.trans ho
    obtain ⟨hnamed, before, hsplit⟩ := recordOf_eq_some hfound
    obtain ⟨sandbox, jobId, op, ok⟩ := e'
    simp only [GuestEvent.named, Bool.and_eq_true, decide_eq_true_eq] at hnamed
    obtain ⟨rfl, hid⟩ := hnamed
    obtain ⟨rfl, rfl⟩ := GuestOp.id_inj hid
    cases hok
    have hbefore := hw
    rw [hsplit] at hbefore
    have hran := hbefore.split hk
    have hsince := hfresh op ho (not_ofStep_checkoutOps (List.mem_of_getElem? hk)) (by rw [hfound]; rfl)
    rw [reverse_take_succ hk, Option.toList_none, List.nil_append, hsplit]
    exact Ran.keepAll hsince (.run op hran)

/-- Where an execution goes on, it has had run what it needs. -/
theorem Reached.next (hw : InOrder size w.history)
    (hp : (w.place x.client).next x.job.plan (size x.job.id) r = some p)
    (hfresh : r = .done true → ∀ op ∈ w.calls size x, op.ofStep = false →
      (recordOf w.history s (op.id x.job.id)).isSome = true →
        ∀ e ∈ since w.history s (op.id x.job.id), e.sandbox = s → e.jobId = x.job.id) :
    Reached size s x.job.id (e.toList ++ w.history) p := by
  have hdone := fun k hpc hr => Reached.done h he hw (k := k) hpc hr (hfresh hr)
  have hkeep : Reached size s x.job.id (e.toList ++ w.history) (w.place x.client) := by
    refine h.keep fun e' he' _ => ?_
    rcases Guests.ran_cases he with ⟨o, ok, -, -, rfl, -⟩ | ⟨rfl, -⟩
    · cases he'
      rfl
    · cases he'
  generalize w.place x.client = pc at hp hdone hkeep
  cases pc with
  | finished => cases hp
  | checkout k =>
    cases r with
    | skip => cases hp
    | stop | failed =>
      cases hp
      trivial
    | done ok =>
      cases ok with
      | false =>
        cases hp
        trivial
      | true =>
        have hran := hdone k rfl rfl
        simp only [GuestPc.next, Option.some.injEq] at hp
        subst hp
        split_ifs with hlt
        · exact hran
        · rwa [List.take_of_length_le (by omega)] at hran
  | step idx =>
    cases r with
    | stop =>
      cases hp
      trivial
    | skip =>
      obtain ⟨_, -, rfl⟩ := Option.map_eq_some_iff.mp hp
      exact hkeep
    | done | failed =>
      obtain ⟨_, -, rfl⟩ := Option.map_eq_some_iff.mp hp
      split_ifs
      · exact hkeep
      · trivial

end Call

theorem Attempt.not_steps_entry (job : VmJob) (s : String) : Attempt.entry job ≠ .steps s := by
  intro h
  have hvm := Attempt.vm_entry job
  rw [h] at hvm
  cases hvm

/-- Nobody comes from the steps back to the steps. -/
theorem Attempt.not_steps_next {x : Attempt} {db : PoolDb} {locked : List String} {r : VmReply}
    {n : VmNext} {s t : String} (hn : x.next db locked r = some n) (hs : x.pc = .steps s) :
    n.pc ≠ some (.steps t) := by
  intro ht
  unfold Attempt.next at hn
  rw [hs] at hn
  cases r <;> simp only [Option.some.injEq, reduceCtorEq] at hn <;> subst hn <;>
    grind [Attempt.releaseVm, Attempt.released, VmNext.pc]

theorem Guests.runs_eq {w : Guests} {i : Nat} {x : Attempt} {s : String} {r : GuestReply}
    {e : Option GuestEvent} (hi : w.fleet.attempts[i]? = some x) (hs : x.pc = .steps s)
    (he : w.ran s x.job.id (w.calls size x) r = some e) : w.runs size (.guest i r) = e := by
  rw [runs, hi, Option.bind_some, VmPc.stepsIn_eq_some.mpr hs, Option.bind_some, he, Option.join_some]

/-- Executions of one client are one execution. -/
def Guests.Distinct (w : Guests) : Prop := (w.fleet.attempts.map (·.client)).Nodup

theorem Guests.Distinct.eq {w : Guests} (h : w.Distinct) {x y : Attempt}
    (hy : y ∈ w.fleet.attempts) (hx : x ∈ w.fleet.attempts) (hxy : y.client = x.client) : y = x :=
  List.inj_on_of_nodup_map h hy hx hxy

/-- What the instances do outside the steps leaves the executions in their steps where they are, and
brings others to the beginning of theirs. -/
theorem Kept.fleet {w : Guests} {a : FleetAct} {f : Fleet} (h : Kept size w) (hd : w.Distinct)
    (hstep : fleetMachine.step w.fleet a = some f) :
    Kept size { w with fleet := f, place := w.placed a } := by
  refine ⟨h.inOrder, fun y hy s hs => ?_⟩
  cases fleet_cases hstep with
  | boot | pool => exact h.reached y hy s hs
  | crash => exact h.reached y (List.mem_filter.mp hy).1 s hs
  | run lease pool plan job vm hlive hvm =>
    rcases List.mem_append.mp hy with hy | hy
    · exact h.reached y hy s hs
    · rw [List.mem_singleton.mp hy] at hs
      exact absurd hs (Attempt.not_steps_entry job s)
  | attempt i x hi r locked n hn vm hvm =>
    have hx := List.mem_of_getElem? hi
    simp only [Guests.placed, hi]
    rcases Actors.mem_put hy with hold | hmoved
    · split_ifs with hsteps
      · exact h.reached y hold s hs
      · rw [Function.update_of_ne]
        · exact h.reached y hold s hs
        · intro hyx
          rw [hd.eq hold hx hyx] at hs
          exact hsteps (by rw [hs]; rfl)
    · obtain ⟨pc, hpc, rfl⟩ := Option.map_eq_some_iff.mp hmoved
      obtain rfl : pc = .steps s := hs
      rw [if_neg, Function.update_self]
      · exact .nil _
      · intro hsteps
        obtain ⟨t, ht⟩ := Option.isSome_iff_exists.mp hsteps
        exact Attempt.not_steps_next hn (VmPc.stepsIn_eq_some.mp ht) hpc

/-- A call of an execution leaves the others where they are, if no other job is in the VM. -/
theorem Kept.guest {w : Guests} (h : Kept size w) (hd : w.Distinct) {i : Nat} {x : Attempt}
    (hi : w.fleet.attempts[i]? = some x) {s : String} (hx : x.pc = .steps s) {r : GuestReply}
    {p : GuestPc} (hp : (w.place x.client).next x.job.plan (size x.job.id) r = some p)
    {e : Option GuestEvent} (he : w.ran s x.job.id (w.calls size x) r = some e)
    (hf : w.Fresh size (.guest i r)) (ha : w.Alone size (.guest i r)) :
    Kept size { w with
      place := Function.update w.place x.client p
      history := e.toList ++ w.history } := by
  have hmem := List.mem_of_getElem? hi
  have hreached := h.reached x hmem s hx
  refine ⟨hreached.inOrder he h.inOrder, fun y hy t ht => ?_⟩
  change Reached size t y.job.id (e.toList ++ w.history)
    (Function.update w.place x.client p y.client)
  by_cases hyx : y.client = x.client
  · obtain rfl := hd.eq hy hmem hyx
    obtain rfl : s = t := VmPc.steps.inj (hx.symm.trans ht)
    rw [Function.update_self]
    refine hreached.next he h.inOrder hp ?_
    rintro rfl
    exact hf y hi s (VmPc.stepsIn_eq_some.mpr hx)
  · rw [Function.update_of_ne hyx]
    refine (h.reached y hy t ht).keep fun e' he' hsandbox => ?_
    have hruns := Guests.runs_eq hi hx he
    refine (ha e' (by rw [hruns]; exact he') y hy ?_).symm
    rw [hsandbox]
    exact ht

/-- **Every step keeps the invariant.** -/
theorem Kept.step {w w' : Guests} {a : GuestAct} (h : Kept size w) (hd : w.Distinct)
    (hm : w.Moves size a w') (hf : w.Fresh size a) (ha : w.Alone size a) : Kept size w' := by
  cases hm with
  | fleet a f hl hstep => exact h.fleet hd hstep
  | guest i x hi s hx r p hp e he => exact h.guest hd hi hx hp he hf ha

/-- **A step's command that is run finds its own tree.** -/
theorem Kept.ownTree {w w' : Guests} {a : GuestAct} (h : Kept size w) (hm : w.Moves size a w') :
    w.OwnTree size a := by
  intro e he hstep
  cases hm with
  | fleet => cases he
  | guest i x hi s hx r p hp e₀ he₀ =>
    rw [Guests.runs_eq hi hx he₀] at he
    rcases Guests.ran_cases he₀ with ⟨o, ok, ho, -, rfl, -⟩ | ⟨rfl, -⟩
    · obtain rfl := Option.some.inj he
      have hreached := h.reached x (List.mem_of_getElem? hi) s hx
      rw [Guests.calls] at ho
      generalize w.place x.client = pc at ho hreached
      cases pc with
      | checkout k =>
        have hno := not_ofStep_checkoutOps (List.mem_of_getElem? ho)
        exact absurd hno (by rw [hstep]; exact Bool.noConfusion)
      | step idx => exact hreached
      | finished => cases ho
    · cases he

end Step

/-- **In a run where no checkout goes on with a record that is older than another job's command, and
where commands run beside no other job, every step finds its own tree.** -/
theorem ownTree_of_fresh (size : String → Nat) (now : Nat) (as : List GuestAct)
    (h : (guestMachine size).Throughout (fun w a _ => w.Fresh size a ∧ w.Alone size a)
      (Guests.start now) as) :
    (guestMachine size).Throughout (fun w a _ => w.OwnTree size a) (Guests.start now) as := by
  have hkept : Kept size (Guests.start now) := ⟨trivial, fun x hx => absurd hx List.not_mem_nil⟩
  refine h.of_inv (Machine.Reachable.init ⟨now, rfl⟩) hkept fun w a w' hr hI hstep hlaw => ?_
  have hm := guest_cases hstep
  exact ⟨hI.step (Fleet.distinct_of_reachable (Guests.fleet_reach hr)) hm hlaw.1 hlaw.2, hI.ownTree hm⟩

/-! ## A redelivered job -/

/-- Every source is small. -/
def smallSource (_ : String) : Nat := 10

/-- The execution makes a checkout and then these calls. -/
def checkoutAnd (more : List GuestReply) : List GuestAct :=
  (List.replicate 3 (GuestReply.done true) ++ more).map (.guest 0)

/-- The execution gives its VM back and is over. -/
def giveBack : List GuestAct := (List.replicate 4 (FleetAct.attempt 0 .ok [])).map .fleet

/-- An instance takes the idle VM for a job, up to the checkout. -/
def reuseVm (jobId : String) : List GuestAct :=
  (.run ⟨"ci-2", 180⟩ .single (.plain "build" []) jobId :: .attempt 0 (.text "fp") [] ::
    List.replicate 6 (.attempt 0 .ok [])).map .fleet

/-- Two jobs, one after the other, in one VM. -/
def oneAfterOther : List GuestAct :=
  takeVm.map .fleet ++ checkoutAnd [.done true, .stop] ++ giveBack ++
    [.fleet (.boot ⟨"ci-2", 180⟩)] ++ reuseVm "q.build" ++ checkoutAnd [.done true, .stop]

theorem ownTree_oneAfterOther :
    ((guestMachine smallSource).run (Guests.start 0) oneAfterOther).isSome = true ∧
      (guestMachine smallSource).Throughout (fun w a _ => w.OwnTree smallSource a) (Guests.start 0)
        oneAfterOther :=
  ⟨by decide, ownTree_of_fresh smallSource 0 oneAfterOther (by decide)⟩

/-- An instance checks a job out and goes down. Another one reclaims the VM, runs a job of another run
in it, and takes it again for the first job, whose checkout finds its records. -/
def redelivered : List GuestAct :=
  takeVm.map .fleet ++ checkoutAnd [] ++
    [FleetAct.crash "ci-1", .pool (.tick 181), .boot ⟨"ci-2", 180⟩,
      .pool (.releaseOrphans ⟨181, .empty, .empty⟩ ["hd-1"] "ci-2")].map .fleet ++
    reuseVm "q.build" ++ checkoutAnd [.done true, .stop] ++ giveBack ++ reuseVm "r.build" ++
    checkoutAnd []

/-- The step of the first job runs in the tree of the other run. -/
theorem foreign_tree : ¬ ∀ (size : String → Nat) (now : Nat) (as : List GuestAct),
    (guestMachine size).Throughout (fun w a _ => w.OwnTree size a) (Guests.start now) as := by
  intro h
  have hrun : ((guestMachine smallSource).run (Guests.start 0) redelivered).map (fun w =>
      (w.runs smallSource (.guest 0 (.done true)), w.history.head?,
        ((guestMachine smallSource).step w (.guest 0 (.done true))).isSome)) =
      some (some ⟨"sb-1", "r.build", .step 0, true⟩, some ⟨"sb-1", "q.build", .step 0, true⟩, true) := by
    decide
  obtain ⟨w, hw, hdata⟩ := Option.map_eq_some_iff.mp hrun
  simp only [Prod.mk.injEq] at hdata
  obtain ⟨hruns, hhead, hstep⟩ := hdata
  obtain ⟨w', hw'⟩ := Option.isSome_iff_exists.mp hstep
  refine Machine.not_throughout hw hw' (fun hown => ?_) (h smallSource 0 _)
  have hran := hown _ hruns rfl
  obtain ⟨before, hhistory⟩ := List.head?_eq_some_iff.mp hhead
  rw [hhistory] at hran
  exact absurd (hran.head rfl) (by decide)

end HeyoCi
