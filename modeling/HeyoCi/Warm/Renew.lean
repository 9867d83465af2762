import Mathlib.Algebra.Group.Nat.Defs
import HeyoCi.Warm.Clients

/-!
# The lease loop of a live instance

An instance renews its leases on a timer whose period comes from the length of the lease, with a
floor. The clock counts nanoseconds here, so a third of a lease is what a `Duration` makes of it.

* `VmLease`: an accepted `CI_VM_LEASE_SECS`; `VmLease.period`: the period of `spawn_lease_loop`;
* `LiveWorld`, `liveMachine`: the pool and its clients, beside one ticker that is never late;
* `LiveWorld.Keeps`: what the instance holds has time left, and no sibling can take it;
* `LiveWorld.Renewed`: the invariant of a period that fits into the lease;
* **`keepsLeases_iff`**: the instance keeps its leases exactly from five seconds on.
-/

namespace HeyoCi

/-- A setting that `secs` of the configuration accepts. -/
structure VmLease where
  secs : Nat
  /-- "must be greater than zero". -/
  pos : 0 < secs
  fits : secs < 2 ^ 64

namespace VmLease

variable (l : VmLease)

/-- `Duration::from_secs`. -/
def nanos : Nat := l.secs * 10 ^ 9

/-- A third of the lease, and five seconds at least. -/
def period : Nat := max (l.nanos / 3) (5 * 10 ^ 9)

theorem period_le_nanos_iff : l.period ≤ l.nanos ↔ 5 ≤ l.secs := by
  unfold period nanos
  omega

end VmLease

/-- The lease a call claims under. -/
def VmAct.lease? : VmAct → Option Lease
  | .claim _ _ _ lease _ | .beginBuild _ _ _ _ lease | .register _ _ _ _ _ lease
  | .renewLeases lease => some lease
  | _ => none

/-- The pool with its clients, and when the ticker of the instance fires next. -/
structure LiveWorld where
  vm : VmWorld
  due : Nat

namespace LiveWorld

variable (me : String) (l : VmLease) (w : LiveWorld)

/-- Whether the instance can make a call: its claims are under its own lease, time does not pass a
tick that is due, and it renews at its ticks. -/
def Timely (a : VmAct) : Prop :=
  (∀ lease ∈ a.lease?, lease.instanceId = me → lease.ttl = l.nanos) ∧ match a with
  | .tick d => w.vm.db.now + d ≤ w.due
  | .renewLeases lease => lease.instanceId = me → w.vm.db.now = w.due
  | _ => True

instance (a : VmAct) : Decidable (w.Timely me l a) := by
  unfold Timely
  refine @instDecidableAnd _ _ inferInstance ?_
  cases a <;> infer_instance

/-- When the ticker fires next, after a call. -/
def nextDue (a : VmAct) : Nat := match a with
  | .renewLeases lease => if lease.instanceId = me then w.vm.db.now + l.period else w.due
  | _ => w.due

/-- One call, by this instance or another. -/
def step (a : VmAct) : Option LiveWorld :=
  if w.Timely me l a then (w.vm.step a).map fun vm => ⟨vm, w.nextDue me l a⟩ else none

end LiveWorld

/-- The first tick of the ticker is at the start. -/
def liveMachine (me : String) (l : VmLease) : Machine LiveWorld VmAct where
  init w := ∃ now, w = ⟨.start now, now⟩
  step w a := w.step me l a

/-- The instance holds the VM, or is building it. -/
def PooledVm.LeasedTo (r : PooledVm) (me : String) : Prop :=
  r.leasedBy = some me ∧ (r.status = .claimed ∨ r.status = .building)

namespace LiveWorld

/-- **No lease of the instance has run out**, and no reclaim of any instance takes the row. -/
def Keeps (me : String) (w : LiveWorld) : Prop := ∀ r ∈ w.vm.db.vms.rows, r.LeasedTo me →
  (∃ t, r.leasedUntil = some t ∧ w.vm.db.now ≤ t) ∧
  (∀ store runners sibling,
    (VmPool.releaseOrphans store w.vm.db.now runners sibling).hits r = false) ∧
  ∀ runners sibling, VmPool.sweepStaleBuilds w.vm.db.now runners sibling r = false

/-- Every lease of the instance lasts until its ticker fires, which is within a period. -/
structure Renewed (me : String) (l : VmLease) (w : LiveWorld) : Prop where
  now_le : w.vm.db.now ≤ w.due
  due_le : w.due ≤ w.vm.db.now + l.period
  leased : ∀ r ∈ w.vm.db.vms.rows, r.LeasedTo me → ∃ t, r.leasedUntil = some t ∧ w.due ≤ t

variable {me : String} {l : VmLease} {w w' : LiveWorld} {a : VmAct}

theorem step_cases (h : w.step me l a = some w') : w.Timely me l a ∧
    ∃ st c, w.vm.Moves a st c ∧ w' = ⟨⟨w.vm.db.exec st, c⟩, w.nextDue me l a⟩ := by
  unfold step at h
  split_ifs at h with ht
  obtain ⟨vm, hvm, rfl⟩ := Option.map_eq_some_iff.mp h
  obtain ⟨st, c, hm, rfl⟩ := vmStep_cases hvm
  exact ⟨ht, st, c, hm, rfl⟩

theorem Renewed.keeps (h : w.Renewed me l) : w.Keeps me := by
  intro r hr hme
  obtain ⟨t, ht, hdue⟩ := h.leased r hr hme
  have hnow : w.vm.db.now ≤ t := h.now_le.trans hdue
  refine ⟨⟨t, ht, hnow⟩, fun store runners sibling => ?_, fun runners sibling => ?_⟩
  · simp [VmPool.releaseOrphans, VmPool.orphaned, ht, hnow]
  · simp [VmPool.sweepStaleBuilds, ht, hnow]

/-! ## The invariant -/

/-- No statement turns the clock back. -/
theorem now_le_exec (db : PoolDb) (st : VmStmt) : db.now ≤ (db.exec st).now := by
  cases st with
  | tick d => exact Nat.le_add_right db.now d
  | _ => exact le_refl db.now

/-- What a claim of the instance leaves in the row it makes: the whole lease. -/
theorem leased_new {now due : Nat} (hl : l.period ≤ l.nanos) (hdue : due ≤ now + l.period)
    {lease : Lease} (httl : lease.instanceId = me → lease.ttl = l.nanos) {r : PooledVm}
    (hby : r.leasedBy = some lease.instanceId) (huntil : r.leasedUntil = some (now + lease.ttl))
    (hme : r.LeasedTo me) : ∃ t, r.leasedUntil = some t ∧ due ≤ t := by
  have hid : lease.instanceId = me := Option.some.inj (hby.symm.trans hme.1)
  refine ⟨_, huntil, ?_⟩
  rw [httl hid]
  omega

/-- A row after a call that does not renew. -/
theorem Renewed.leased_exec (h : w.Renewed me l) (hl : l.period ≤ l.nanos) {st : VmStmt} {c : VmCtl}
    (hm : w.vm.Moves a st c)
    (httl : ∀ lease ∈ a.lease?, lease.instanceId = me → lease.ttl = l.nanos)
    (hren : ∀ lease, a = .renewLeases lease → lease.instanceId ≠ me)
    {r' : PooledVm} (hr' : r' ∈ (w.vm.db.exec st).vms.rows) (hme : r'.LeasedTo me) :
    ∃ t, r'.leasedUntil = some t ∧ w.due ≤ t := by
  rcases PoolDb.cases_exec hr' with ⟨r, hr, -, hmv⟩ | ⟨-, hnew⟩
  · cases hmv with
    | keep => exact h.leased _ hr hme
    | claim runner fp jobId lease locked =>
      cases hm
      exact leased_new hl h.due_le (httl lease rfl) rfl rfl hme
    | build jobId runner fp wf lease =>
      cases hm
      exact leased_new hl h.due_le (httl lease rfl) rfl rfl hme
    | register runner fp wf jobId lease =>
      cases hm with
      | register => exact leased_new hl h.due_le (httl _ rfl) rfl rfl hme
    | renew lease hby =>
      cases hm
      exact absurd (Option.some.inj (hby.symm.trans hme.1)) (hren lease rfl)
    | release | orphan =>
      cases hme.1
    | drain =>
      rcases hme.2 with hs | hs <;> cases hs
  · cases st with
    | beginBuild jobId runner fp wf lease =>
      cases hnew
      cases hm
      exact leased_new hl h.due_le (httl lease rfl) rfl rfl hme
    | register s runner fp wf jobId lease =>
      cases hnew
      cases hm
      exact leased_new hl h.due_le (httl lease rfl) rfl rfl hme
    | _ => cases hnew

/-- A row of the instance after its renewal. -/
theorem leased_renew {db : PoolDb} {lease : Lease} (hid : lease.instanceId = me) {r' : PooledVm}
    (hr' : r' ∈ (db.exec (.renewLeases lease)).vms.rows) (hme : r'.LeasedTo me) :
    r'.leasedUntil = some (db.now + lease.ttl) := by
  rcases PoolDb.mem_exec.mp hr' with ⟨r, hr, -, rfl⟩ | ⟨-, hnew⟩
  · by_cases hits : ((VmStmt.renewLeases lease).onVms db).hits r = true
    · rw [Table.Update.row_of_hits hits]
      rfl
    · rw [Table.Update.row_of_not_hits (Bool.eq_false_iff.mpr hits)] at hme
      refine absurd ?_ hits
      simp [VmStmt.onVms, VmPool.renewLeases, hid, hme.1, hme.2]
  · cases hnew

/-- **A timely call keeps the leases long enough** when the period fits into the lease. -/
theorem Renewed.step (h : w.Renewed me l) (hl : l.period ≤ l.nanos)
    (hstep : w.step me l a = some w') : w'.Renewed me l := by
  obtain ⟨⟨httl, htime⟩, st, c, hm, rfl⟩ := step_cases hstep
  by_cases hown : ∃ lease, a = .renewLeases lease ∧ lease.instanceId = me
  · obtain ⟨lease, rfl, hid⟩ := hown
    cases hm
    have hdue : w.nextDue me l (.renewLeases lease) = w.vm.db.now + l.period := if_pos hid
    rw [hdue]
    refine ⟨Nat.le_add_right w.vm.db.now l.period, le_refl (w.vm.db.now + l.period), ?_⟩
    intro r hr hme
    refine ⟨_, leased_renew hid hr hme, ?_⟩
    rw [httl lease rfl hid]
    exact Nat.add_le_add_left hl w.vm.db.now
  · have hren : ∀ lease, a = .renewLeases lease → lease.instanceId ≠ me := fun lease ha hid =>
      hown ⟨lease, ha, hid⟩
    have hdue : w.nextDue me l a = w.due := by
      unfold nextDue
      split
      · exact if_neg (hren _ rfl)
      · rfl
    rw [hdue]
    refine ⟨?_, ?_, fun r hr hme => h.leased_exec hl hm httl hren hr hme⟩
    · show (w.vm.db.exec st).now ≤ w.due
      cases hm with
      | tick d => exact htime
      | _ => exact h.now_le
    · exact h.due_le.trans (Nat.add_le_add_right (now_le_exec w.vm.db st) l.period)

theorem Renewed.start (now : Nat) : (⟨.start now, now⟩ : LiveWorld).Renewed me l where
  now_le := le_refl now
  due_le := Nat.le_add_right now l.period
  leased := nofun

theorem renewed_of_reachable (hl : l.period ≤ l.nanos)
    (h : (liveMachine me l).Reachable Machine.anyStep w) : w.Renewed me l := by
  refine h.inv (Renewed me l) ?_ fun w a w' _ hI _ hstep => hI.step hl hstep
  rintro _ ⟨now, rfl⟩
  exact Renewed.start now

/-! ## A period longer than the lease -/

theorem step_of_timely (ht : w.Timely me l a) {st : VmStmt} {c : VmCtl}
    (h : w.vm.act a = some (st, c)) :
    (liveMachine me l).step w a = some ⟨⟨w.vm.db.exec st, c⟩, w.nextDue me l a⟩ := by
  show w.step me l a = _
  rw [step, if_pos ht, VmWorld.step, h]
  rfl

/-- A VM is registered right after a tick, and a moment more than its lease goes by before the
next. -/
theorem lapses_of_short (me : String) (hl : ¬ l.period ≤ l.nanos) :
    ∃ w, (liveMachine me l).Reachable Machine.anyStep w ∧ ¬ w.Keeps me := by
  have hlong : l.nanos + 1 ≤ l.period := Nat.not_le.mp hl
  have hown : ∀ lease : Lease, lease ∈ some (⟨me, l.nanos⟩ : Lease) → lease.instanceId = me →
      lease.ttl = l.nanos := by
    rintro lease hlease -
    cases hlease
    rfl
  have h₀ : (liveMachine me l).Reachable Machine.anyStep ⟨.start 0, 0⟩ :=
    Machine.Reachable.init ⟨0, rfl⟩
  have h₁ := h₀.step trivial (step_of_timely (a := .renewLeases ⟨me, l.nanos⟩)
    ⟨hown, fun _ => rfl⟩ rfl)
  have h₂ := h₁.step trivial (step_of_timely (a := .start "A") ⟨nofun, trivial⟩ rfl)
  have h₃ := h₂.step trivial (step_of_timely (a := .register 0 "sb-1" "hd" "fp" "wf" ⟨me, l.nanos⟩)
    ⟨hown, trivial⟩ rfl)
  have h₄ := h₃.step trivial (step_of_timely (a := .tick (l.nanos + 1)) ⟨nofun, by
    simp only [nextDue, if_true]
    show 0 + (l.nanos + 1) ≤ 0 + l.period
    omega⟩ rfl)
  have hrow : VmPool.newRow 0 .claimed "sb-1" "hd" "fp" "wf" "A" ⟨me, l.nanos⟩ ∈
      ((VmWorld.start 0).db.exec (.register "sb-1" "hd" "fp" "wf" "A" ⟨me, l.nanos⟩)).vms.rows :=
    PoolDb.mem_exec.mpr (Or.inr ⟨rfl, rfl⟩)
  refine ⟨_, h₄, fun hk => ?_⟩
  obtain ⟨⟨t, ht, hle⟩, -⟩ := hk _ hrow ⟨rfl, Or.inl rfl⟩
  cases ht
  have hnow : 0 + (l.nanos + 1) ≤ 0 + l.nanos := hle
  omega

end LiveWorld

/-- **An instance that is never paused keeps its leases exactly when they are of at least five
seconds.** -/
theorem keepsLeases_iff (me : String) (l : VmLease) :
    (∀ w, (liveMachine me l).Reachable Machine.anyStep w → w.Keeps me) ↔ 5 ≤ l.secs := by
  rw [← l.period_le_nanos_iff]
  constructor
  · intro h
    by_contra hl
    obtain ⟨w, hw, hlost⟩ := LiveWorld.lapses_of_short me hl
    exact hlost (h w hw)
  · exact fun hl w hw => (LiveWorld.renewed_of_reachable hl hw).keeps

/-- A lease of one second runs out four seconds before it is renewed. -/
theorem short_lease_lapses : ¬ ∀ (me : String) (l : VmLease) (w : LiveWorld),
    (liveMachine me l).Reachable Machine.anyStep w → w.Keeps me := by
  intro h
  have hl : ¬ (⟨1, by decide, by decide⟩ : VmLease).period ≤ 1 * 10 ^ 9 := by decide
  obtain ⟨w, hw, hlost⟩ := LiveWorld.lapses_of_short "ci-1" hl
  exact hlost (h "ci-1" _ w hw)

end HeyoCi
