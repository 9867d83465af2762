import HeyoCi.Warm.Mutex

/-!
# What is draining stays out of the pool

A sweep marks the VMs it is going to destroy, so that no claim hands one out in the meantime. The
mark is a status, and `release` writes the status of whatever row it meets.

* `VmWorld.SparesBusy`: what a sweep leaves alone, and what a claim does;
* `VmWorld.StaysOut`: a step puts nothing that is draining back into circulation;
* `VmWorld.NeverAgain`: in a run, what was draining is not handed out before it is forgotten;
* **`drainLaw_iff`**: all three hold of the runs without a late release of a draining VM;
* `drained_vm_claimed`: a run with one.
-/

namespace HeyoCi

namespace VmWorld

/-- A claim that returns the sandbox. -/
def HandsOut (w : VmWorld) (a : VmAct) (sandboxId : String) : Prop :=
  ∃ i runner fp lease locked, a = .claim i runner fp lease locked ∧
    w.db.pick runner fp locked = some sandboxId

def Recorded (w : VmWorld) (sandboxId : String) : Prop :=
  ∃ r ∈ w.db.vms.rows, r.sandboxId = sandboxId

def Draining (w : VmWorld) (sandboxId : String) : Prop :=
  ∃ r ∈ w.db.vms.rows, r.sandboxId = sandboxId ∧ r.status = .draining

/-- A sweep leaves claimed VMs and those being built as they are, and no claim returns one that is
being built. -/
def SparesBusy (w : VmWorld) (a : VmAct) (w' : VmWorld) : Prop :=
  (∀ s, a = .take s → ∀ r ∈ w.db.vms.rows, r.status = .claimed ∨ r.status = .building →
    r ∈ w'.db.vms.rows) ∧
  ∀ r ∈ w.db.vms.rows, r.status = .building → ¬ w.HandsOut a r.sandboxId

/-- What is draining is still draining, if it is there at all. -/
def StaysOut (w : VmWorld) (_ : VmAct) (w' : VmWorld) : Prop :=
  ∀ r ∈ w.db.vms.rows, r.status = .draining → ∀ r' ∈ w'.db.vms.rows, r'.sandboxId = r.sandboxId →
    r'.status = .draining

/-- From the moment its row is `draining`, and until the row is gone, no claim returns a sandbox. -/
def NeverAgain (w₀ : VmWorld) (as : List VmAct) : Prop :=
  ∀ pre mid a post w w', as = pre ++ (mid ++ a :: post) → vmMachine.run w₀ pre = some w →
    vmMachine.run w mid = some w' → ∀ s, w.Draining s →
      vmMachine.Throughout (fun _ _ v => v.Recorded s) w mid → ¬ w'.HandsOut a s

/-- What a sweep takes was idle and is never handed out again. -/
def DrainLaw (w₀ : VmWorld) (as : List VmAct) : Prop :=
  vmMachine.Throughout SparesBusy w₀ as ∧ vmMachine.Throughout StaysOut w₀ as ∧ w₀.NeverAgain as

variable {w : VmWorld} {a : VmAct} {st : VmStmt} {c : VmCtl}

theorem idle_of_handsOut {r : PooledVm} (hr : r ∈ w.db.vms.rows) (h : w.HandsOut a r.sandboxId) :
    r.status = .idle := by
  obtain ⟨i, runner, fp, lease, locked, rfl, hp⟩ := h
  exact PoolDb.status_of_pick hr hp

/-- The sweeps and the claims look at the status themselves. -/
theorem Moves.sparesBusy (hm : w.Moves a st c) : w.SparesBusy a ⟨w.db.exec st, c⟩ := by
  constructor
  · rintro s rfl r hr hbusy
    cases hm with
    | take s =>
      have hhits : ((VmStmt.take s).onVms w.db).hits r = false := by
        refine Bool.eq_false_iff.mpr fun hsw => ?_
        obtain ⟨hc, hb⟩ := VmPool.status_of_swept hsw
        exact hbusy.elim hc hb
      exact PoolDb.mem_exec.mpr (Or.inl ⟨r, hr, rfl, Table.Update.row_of_not_hits hhits⟩)
  · intro r hr hb hout
    rw [idle_of_handsOut hr hout] at hb
    cases hb

/-- **A step keeps what is draining out of the pool** unless it is a release of such a VM. -/
theorem Moves.staysOut_iff (hm : w.Moves a st c) (hids : w.Ids) :
    w.StaysOut a ⟨w.db.exec st, c⟩ ↔ w.LeavesSwept a := by
  constructor
  · rintro h i r hr rfl hs
    cases hm with
    | release i x hi s hx =>
      have hset : ((VmStmt.release r.sandboxId).onVms w.db).row r =
          (VmPool.release w.db.now r.sandboxId).set r := Table.Update.row_of_hits (decide_eq_true rfl)
      have hmem := PoolDb.mem_exec.mpr (Or.inl ⟨r, hr, rfl, hset⟩)
      exact absurd (h r hr hs _ hmem rfl) nofun
  · intro hl r hr hs r' hr' hid
    rcases PoolDb.cases_exec hr' with ⟨r₀, hr₀, -, hmv⟩ | ⟨hnone, -⟩
    · obtain rfl := w.db.vms.eq_of_key hr₀ hr (hmv.sandboxId.symm.trans hid)
      exact hm.draining hids hl hr hs hmv
    · exact absurd hid.symm (w.db.vms.find_eq_none.mp hnone r hr)

/-- Without late releases a sandbox is draining for as long as it has a row. -/
theorem draining_of_run {mid : List VmAct} {w' : VmWorld} {s : String}
    (hw : vmMachine.Reachable Machine.anyStep w) (hd : w.Draining s)
    (hl : vmMachine.Throughout (fun v a _ => v.LeavesSwept a) w mid)
    (hrec : vmMachine.Throughout (fun _ _ v => v.Recorded s) w mid)
    (hrun : vmMachine.run w mid = some w') : w'.Draining s := by
  refine Machine.Throughout.last (I := fun v => v.Draining s) ?_ hd hrun
  refine Machine.Throughout.of_inv (I := fun v => v.Draining s) hw hd
    (fun v a v' hv hI hstep hlaw => ?_) (Machine.throughout_and.mpr ⟨hl, hrec⟩)
  obtain ⟨st, c, hm, rfl⟩ := vmStep_cases hstep
  obtain ⟨r, hr, hid, hs⟩ := hI
  obtain ⟨r', hr', hid'⟩ := hlaw.2
  have hout := (hm.staysOut_iff (VmWorld.ids_of_reachable hv)).mpr hlaw.1
  have hafter := hout r hr hs r' hr' (hid'.trans hid.symm)
  exact ⟨⟨r', hr', hid', hafter⟩, r', hr', hid', hafter⟩

theorem neverAgain {w₀ : VmWorld} {as : List VmAct} (h₀ : vmMachine.Reachable Machine.anyStep w₀)
    (h : vmMachine.Throughout (fun v a _ => v.LeavesSwept a) w₀ as) : w₀.NeverAgain as := by
  rintro pre mid a post w w' rfl hpre hmid s hd hrec hout
  obtain ⟨hreach₀, hinit, hreach⟩ := h₀
  have hw : vmMachine.Reachable Machine.anyStep w :=
    ⟨hreach₀, hinit, hreach.trans (Machine.reach_of_run hpre)⟩
  have hl := (Machine.throughout_append.mp ((Machine.throughout_append.mp h).2 w hpre)).1
  obtain ⟨r, hr, rfl, hs⟩ := draining_of_run hw hd hl hrec hmid
  rw [idle_of_handsOut hr hout] at hs
  cases hs

end VmWorld

/-- **What is draining is never handed out again, in exactly the runs without a release that meets a
VM a sweep has taken.** -/
theorem drainLaw_iff (now : Nat) (as : List VmAct) : (VmWorld.start now).DrainLaw as ↔
    vmMachine.Throughout (fun w a _ => w.LeavesSwept a) (VmWorld.start now) as := by
  have hreach : vmMachine.Reachable Machine.anyStep (VmWorld.start now) :=
    Machine.Reachable.init ⟨now, rfl⟩
  have hstays : vmMachine.Throughout VmWorld.StaysOut (VmWorld.start now) as ↔
      vmMachine.Throughout (fun w a _ => w.LeavesSwept a) (VmWorld.start now) as := by
    refine Machine.Throughout.congr hreach fun w a w' hr hstep => ?_
    obtain ⟨st, c, hm, rfl⟩ := vmStep_cases hstep
    exact hm.staysOut_iff (VmWorld.ids_of_reachable hr)
  have hspares : vmMachine.Throughout VmWorld.SparesBusy (VmWorld.start now) as := by
    refine Machine.Throughout.of_inv (P := fun _ _ _ => True) (I := fun _ => True) hreach trivial
      (fun w a w' _ _ hstep _ => ?_) ?_
    · obtain ⟨st, c, hm, rfl⟩ := vmStep_cases hstep
      exact ⟨trivial, hm.sparesBusy⟩
    · exact Machine.throughout_of_forall (p := fun _ => True) fun _ _ => trivial
  exact ⟨fun h => hstays.mp h.2.1, fun h => ⟨hspares, hstays.mpr h, VmWorld.neverAgain hreach h⟩⟩

/-! ## A late release -/

/-- One instance registers a VM and stops renewing its lease; another reclaims it and takes it for a
sweep. -/
def sweptAway : List VmAct :=
  [.start "A", .register 0 "sb-1" "hd" "fp" "wf" ⟨"ci-1", 180⟩, .tick 181,
    .releaseOrphans ⟨0, .empty, .empty⟩ ["hd"] "ci-2", .start "B", .take (.one "sb-1" ["hd"])]

/-- The late release of the first job puts the VM back, and a claim takes it. -/
theorem drained_vm_claimed : ¬ ∀ (now : Nat) (as : List VmAct),
    (VmWorld.start now).DrainLaw as := by
  intro h
  have hbefore : (vmMachine.run (VmWorld.start 0) sweptAway).map
      (fun w => w.db.vms.rows.map fun r => (r.sandboxId, r.status)) =
      some [("sb-1", .draining)] := by decide
  obtain ⟨w, hw, hrows⟩ := Option.map_eq_some_iff.mp hbefore
  have hdraining : w.Draining "sb-1" := by
    have hmem : ("sb-1", VmStatus.draining) ∈ w.db.vms.rows.map fun r => (r.sandboxId, r.status) := by
      rw [hrows]
      exact List.mem_singleton_self _
    obtain ⟨r, hr, he⟩ := List.mem_map.mp hmem
    exact ⟨r, hr, congrArg Prod.fst he, congrArg Prod.snd he⟩
  have hafter : (vmMachine.run (VmWorld.start 0) (sweptAway ++ [.release 0 "sb-1"])).map
      (fun w => (w.db.vms.rows.map (·.sandboxId), w.db.pick "hd" "fp" [])) =
      some (["sb-1"], some "sb-1") := by decide
  obtain ⟨w', hw', ha⟩ := Option.map_eq_some_iff.mp hafter
  rw [Machine.run_concat, hw, Option.bind_some] at hw'
  simp only [Prod.mk.injEq] at ha
  have hrecorded : w'.Recorded "sb-1" := by
    have hmem : "sb-1" ∈ w'.db.vms.rows.map (·.sandboxId) := by
      rw [ha.1]
      exact List.mem_singleton_self _
    exact List.mem_map.mp hmem
  refine (h 0 (sweptAway ++ ([.release 0 "sb-1"] ++ [.claim 1 "hd" "fp" ⟨"ci-2", 180⟩ []]))).2.2
    sweptAway [.release 0 "sb-1"] _ [] w w' rfl hw ?_ "sb-1" hdraining ?_ ?_
  · simp only [Machine.run, hw', Option.bind_some]
  · intro v hv
    obtain rfl : w' = v := Option.some.inj (hw'.symm.trans hv)
    exact ⟨hrecorded, trivial⟩
  · exact ⟨1, "hd", "fp", ⟨"ci-2", 180⟩, [], rfl, ha.2⟩

end HeyoCi
