import HeyoCi.Warm.Fleet

/-!
# Claimed VMs of an instance that is up

The lease loop of an instance renews every row the instance holds, whether an execution still uses
the VM or not, and its reclaim leaves its own rows out. What gives a row back is the execution that
got it, and only at some of its exits.

* `PoolDb.Reclaimable`: some reclaim can free the row; `not_reclaimable_renewed`;
* `Fleet.NoLeak`: a VM claimed in the name of an instance that is up has an execution there;
* `Attempt.drops`, `Fleet.keeps`: a step that goes on without the VM though its row stays claimed;
* `Fleet.Held`: every such VM is held by an execution; `Fleet.Held.step`;
* **`noLeak_of_keeps`**: a run without such steps leaks no VM;
* `cutOffInStep`: a run that leaks one.
-/

namespace HeyoCi

/-- A reclaim, by any instance that serves the host, frees the VM now. -/
def PoolDb.Reclaimable (db : PoolDb) (r : PooledVm) : Prop := ∃ store runners instanceId,
  (VmPool.releaseOrphans store db.now runners instanceId).hits r = true

/-- The claims that an instance has just renewed are out of reach of every reclaim. -/
theorem not_reclaimable_renewed {db : PoolDb} {lease : Lease} {r : PooledVm}
    (h : r ∈ (db.exec (.renewLeases lease)).vms.rows) (hc : r.status = .claimed)
    (hl : r.leasedBy = some lease.instanceId) :
    ¬ (db.exec (.renewLeases lease)).Reclaimable r := by
  rintro ⟨store, runners, instanceId, hits⟩
  rcases PoolDb.mem_exec.mp h with ⟨r₀, hr₀, -, rfl⟩ | ⟨-, hnew⟩
  · have hhits : ((VmStmt.renewLeases lease).onVms db).hits r₀ = true := by
      by_contra hno
      rw [Table.Update.row_of_not_hits (by simpa using hno)] at hc hl
      exact hno (by simp [VmStmt.onVms, VmPool.renewLeases, hc, hl])
    rw [Table.Update.row_of_hits hhits] at hits
    simp only [VmPool.releaseOrphans, VmPool.orphaned, VmStmt.onVms, VmPool.renewLeases,
      Bool.and_eq_true, decide_eq_true_eq] at hits
    have hnow : (db.exec (.renewLeases lease)).now = db.now := rfl
    omega
  · cases hnew

/-! ## Leaving a VM behind -/

/-- The row of a VM gives it to the job of the execution, in the name of its instance. -/
def Attempt.owns (x : Attempt) (db : PoolDb) (sandboxId : String) : Bool :=
  db.vms.rows.any fun r => r.sandboxId = sandboxId && r.status = .claimed &&
    r.claimedByJob = some x.job.id && r.leasedBy = some x.lease.instanceId

/-- The call was carried out and its caller does not learn so. -/
def VmReply.unanswered : VmReply → Bool
  | failed ran | cutOff ran => ran
  | _ => false

/-- The execution goes on, or ends, without a VM that stays claimed in its name: it leaves the one
it has, or does not learn that it was given one. -/
def Attempt.drops (x : Attempt) (db : PoolDb) (locked : List String) (r : VmReply) : Bool :=
  (x.holds.any fun s => x.pc.leaves r && x.owns db s) ||
    (r.unanswered && match x.pc with
      | .claim fp => (db.pick x.job.runner fp locked).isSome
      | .register _ _ => true
      | _ => false)

namespace Fleet

/-- The step does not drop a VM. -/
def keeps (w : Fleet) : FleetAct → Bool
  | .attempt i r locked => w.attempts[i]?.all fun x => !x.drops w.vm.db locked r
  | _ => true

/-- A VM claimed in the name of an instance that is up has an execution of its job there, or a
reclaim can free it. -/
def NoLeak (w : Fleet) : Prop := ∀ l ∈ w.live, ∀ r ∈ w.vm.db.vms.rows, ∀ job,
  r.status = .claimed → r.claimedByJob = some job → r.leasedBy = some l.instanceId →
    (∃ x ∈ w.attempts, x.job.id = job ∧ x.lease.instanceId = l.instanceId) ∨
      w.vm.db.Reclaimable r

/-- The execution has the VM, for the job and in the name of the instance that its row says. -/
def HeldBy (x : Attempt) (l : Lease) (r : PooledVm) : Prop :=
  x.lease.instanceId = l.instanceId ∧ r.claimedByJob = some x.job.id ∧ x.holds = some r.sandboxId

/-- A VM claimed in the name of an instance that is up is held by an execution there. -/
def Held (w : Fleet) : Prop := ∀ l ∈ w.live, ∀ r ∈ w.vm.db.vms.rows, r.status = .claimed →
  r.leasedBy = some l.instanceId → ∃ x ∈ w.attempts, HeldBy x l r

theorem Held.noLeak {w : Fleet} (h : w.Held) : w.NoLeak := by
  intro l hl r hr job hs hjob hlease
  obtain ⟨x, hx, hinst, hj, -⟩ := h l hl r hr hs hlease
  exact Or.inl ⟨x, hx, Option.some.inj (hj.symm.trans hjob), hinst⟩

variable {w w' : Fleet} {a : FleetAct}

/-- A statement that gives no VM to anybody leaves every claimed VM with its execution. -/
theorem Held.exec (h : w.Held) {st : VmStmt} (hcl : ∀ ru fp j le lo, st ≠ .claim ru fp j le lo)
    (hre : ∀ s ru fp wf j le, st ≠ .register s ru fp wf j le) {l : Lease} (hl : l ∈ w.live)
    {r : PooledVm} (hr : r ∈ (w.vm.db.exec st).vms.rows) (hs : r.status = .claimed)
    (hlease : r.leasedBy = some l.instanceId) : ∃ x ∈ w.attempts, HeldBy x l r := by
  rcases PoolDb.claimed_exec hr hs with ⟨r₀, hr₀, hid, hs₀, hjob, hby, -, -⟩ |
    ⟨_, _, _, _, _, hst, -⟩ | ⟨_, _, _, _, _, hst, -⟩
  · obtain ⟨x, hx, hinst, hj, hheld⟩ := h l hl r₀ hr₀ hs₀ (hby.trans hlease)
    exact ⟨x, hx, hinst, hjob.symm.trans hj, by rw [hheld, hid]⟩
  · exact absurd hst (hcl _ _ _ _ _)
  · exact absurd hst (hre _ _ _ _ _ _)

/-- The execution that makes a step still holds its VM, if the row is still its own. -/
theorem HeldBy.next {x : Attempt} {r : VmReply} {locked : List String} {n : VmNext}
    (hn : x.next w.vm.db locked r = some n) (hd : x.drops w.vm.db locked r = false) {l : Lease}
    {row : PooledVm} (hrow : row ∈ w.vm.db.vms.rows) (hs : row.status = .claimed)
    (hlease : row.leasedBy = some l.instanceId) (hx : HeldBy x l row)
    (hback : r.ran = true → x.call locked ≠ some (.release x.client row.sandboxId) ∧
      x.call locked ≠ some (.forget x.client row.sandboxId)) :
    ∃ pc, n.pc = some pc ∧ HeldBy { x with pc := pc } l row := by
  obtain ⟨hinst, hjob, hheld⟩ := hx
  rcases Attempt.next_holds hn hheld with hgo | ⟨hran, hcall⟩ | hleaves
  · obtain ⟨pc, hpc, hvm⟩ := Option.bind_eq_some_iff.mp hgo
    exact ⟨pc, hpc, hinst, hjob, Attempt.holds_eq_some.mpr ⟨(Attempt.holds_eq_some.mp hheld).1, hvm⟩⟩
  · rcases hcall with hcall | hcall
    · exact absurd hcall (hback hran).1
    · exact absurd hcall (hback hran).2
  · -- it leaves the VM, so its row is not its own
    have howns : x.owns w.vm.db row.sandboxId = true := by
      refine List.any_eq_true.mpr ⟨row, hrow, ?_⟩
      simp [hs, hjob, hlease, hinst]
    rw [Attempt.drops, hheld, Option.any_some, hleaves, howns] at hd
    cases hd

/-- An execution that `claim` gives a VM holds it next, unless it drops it. -/
theorem heldBy_claim {x : Attempt} {r : VmReply} {locked : List String} {n : VmNext} {fp : String}
    (hpc : x.pc = .claim fp) (hx : x.Apt) (hn : x.next w.vm.db locked r = some n)
    (hran : r.ran = true) (hd : x.drops w.vm.db locked r = false) {l : Lease} {row : PooledVm}
    (hinst : x.lease.instanceId = l.instanceId) (hjob : row.claimedByJob = some x.job.id)
    (hp : w.vm.db.pick x.job.runner fp locked = some row.sandboxId) :
    ∃ pc, n.pc = some pc ∧ HeldBy { x with pc := pc } l row := by
  have hnone : x.job.existingVm = none := by simpa using hx false (by rw [hpc]; rfl)
  have hans : r.unanswered = false := by
    by_contra hu
    rw [Bool.not_eq_false] at hu
    simp [Attempt.drops, hpc, hp, hu] at hd
  unfold Attempt.next at hn
  rw [hpc] at hn
  cases r with
  | ok =>
    simp only [hp, Option.some.injEq] at hn
    subst hn
    exact ⟨_, rfl, hinst, hjob, Attempt.holds_eq_some.mpr ⟨hnone, rfl⟩⟩
  | no | text => cases hn
  | failed ran | cutOff ran => exact absurd (hran.symm.trans hans) (by decide)

/-- An execution that registers a VM holds it next, unless it drops it. -/
theorem heldBy_register {x : Attempt} {r : VmReply} {locked : List String} {n : VmNext} {fp : String}
    {l : Lease} {row : PooledVm} (hpc : x.pc = .register fp row.sandboxId) (hx : x.Apt)
    (hn : x.next w.vm.db locked r = some n) (hran : r.ran = true)
    (hd : x.drops w.vm.db locked r = false) (hinst : x.lease.instanceId = l.instanceId)
    (hjob : row.claimedByJob = some x.job.id) :
    ∃ pc, n.pc = some pc ∧ HeldBy { x with pc := pc } l row := by
  have hnone : x.job.existingVm = none := by simpa using hx false (by rw [hpc]; rfl)
  have hans : r.unanswered = false := by
    by_contra hu
    rw [Bool.not_eq_false] at hu
    simp [Attempt.drops, hpc, hu] at hd
  unfold Attempt.next at hn
  rw [hpc] at hn
  cases r with
  | ok =>
    cases hn
    exact ⟨_, rfl, hinst, hjob, Attempt.holds_eq_some.mpr ⟨hnone, rfl⟩⟩
  | no | text => cases hn
  | failed ran | cutOff ran => exact absurd (hran.symm.trans hans) (by decide)

/-- A step of an execution leaves every claimed VM with an execution, if it drops none. -/
theorem Held.attempt (h : w.Held) (hc : w.Clients) {i : Nat} {x : Attempt}
    (hi : w.attempts[i]? = some x) {r : VmReply} {locked : List String} {n : VmNext}
    (hn : x.next w.vm.db locked r = some n) {vm : VmWorld} (hvm : w.callOf x locked r = some vm)
    (hd : x.drops w.vm.db locked r = false) {l : Lease} (hl : l ∈ w.live) {row : PooledVm}
    (hrow : row ∈ vm.db.vms.rows) (hs : row.status = .claimed)
    (hlease : row.leasedBy = some l.instanceId) :
    ∃ y ∈ Actors.put w.attempts i (n.pc.map fun pc => { x with pc := pc }), HeldBy y l row := by
  have hself : (∃ pc, n.pc = some pc ∧ HeldBy { x with pc := pc } l row) →
      ∃ y ∈ Actors.put w.attempts i (n.pc.map fun pc => { x with pc := pc }), HeldBy y l row := by
    rintro ⟨pc, hpc, hheld⟩
    rw [hpc]
    exact ⟨_, Actors.mem_put_self hi, hheld⟩
  -- a claim that was there before, by the execution that has it
  have hold : ∀ r₀ ∈ w.vm.db.vms.rows, r₀.sandboxId = row.sandboxId → r₀.status = .claimed →
      r₀.claimedByJob = row.claimedByJob → r₀.leasedBy = row.leasedBy →
      (r.ran = true → x.call locked ≠ some (.release x.client r₀.sandboxId) ∧
        x.call locked ≠ some (.forget x.client r₀.sandboxId)) →
      ∃ y ∈ Actors.put w.attempts i (n.pc.map fun pc => { x with pc := pc }), HeldBy y l row := by
    intro r₀ hr₀ hid hs₀ hjob hby hback
    have hto : ∀ y : Attempt, HeldBy y l r₀ → HeldBy y l row := by
      rintro y ⟨hinst, hj, hheld⟩
      exact ⟨hinst, hjob ▸ hj, hid ▸ hheld⟩
    obtain ⟨y, hy, hheld⟩ := h l hl r₀ hr₀ hs₀ (hby.trans hlease)
    by_cases hyx : y = x
    · subst hyx
      obtain ⟨pc, hpc, hnext⟩ := hheld.next hn hd hr₀ hs₀ (hby.trans hlease) hback
      exact hself ⟨pc, hpc, hto _ hnext⟩
    · exact ⟨y, Actors.mem_put_of_ne hi hy hyx, hto y hheld⟩
  have hx := hc x (List.mem_of_getElem? hi)
  rcases callOf_cases hvm with ⟨b, hran, hcall, hb⟩ | ⟨hnone, rfl⟩
  · obtain ⟨st, c, hm, rfl⟩ := vmStep_cases hb
    obtain ⟨y, hy, hyjob, -⟩ := hx.2
    rcases PoolDb.claimed_exec hrow hs with ⟨r₀, hr₀, hid, hs₀, hjob, hby, hrel, hfor⟩ |
      ⟨runner, fp, jobId, lease, locked', rfl, hp, hj, hle⟩ |
      ⟨runner, fp, wf, jobId, lease, rfl, hj, hle⟩
    · refine hold r₀ hr₀ hid hs₀ hjob hby fun _ => ⟨fun he => ?_, fun he => ?_⟩
      · cases hcall.symm.trans he
        cases hm
        exact hrel (by rw [hid])
      · cases hcall.symm.trans he
        cases hm
        exact hfor (by rw [hid])
    · cases hm with
      | claim j z hj' =>
        cases hpc : x.pc <;> rw [Attempt.call, hpc] at hcall <;> cases hcall
        obtain rfl := Option.some.inj (hy.symm.trans hj')
        refine hself (heldBy_claim hpc hx.1 hn hran hd ?_ (hyjob ▸ hj) hp)
        exact Option.some.inj (hle.symm.trans hlease)
    · cases hm with
      | register j z hj' =>
        cases hpc : x.pc <;> rw [Attempt.call, hpc] at hcall <;> cases hcall
        obtain rfl := Option.some.inj (hy.symm.trans hj')
        refine hself (heldBy_register hpc hx.1 hn hran hd ?_ (hyjob ▸ hj))
        exact Option.some.inj (hle.symm.trans hlease)
  · refine hold row hrow rfl hs rfl rfl fun hran => ?_
    rw [hnone hran]
    refine ⟨fun he => ?_, fun he => ?_⟩ <;> cases he

/-- **A step that drops no VM leaves every claimed VM with an execution.** -/
theorem Held.step (h : w.Held) (hc : w.Clients) (hm : w.Moves a w') (hk : w.keeps a = true) :
    w'.Held := by
  intro l hl row hrow hs hlease
  cases hm with
  | boot lease hnew =>
    rcases List.mem_cons.mp hl with rfl | hl
    · exact absurd hlease (hnew.2 row hrow)
    · exact h l hl row hrow hs hlease
  | crash instanceId =>
    obtain ⟨hl, hne⟩ := List.mem_filter.mp hl
    obtain ⟨x, hx, hheld⟩ := h l hl row hrow hs hlease
    refine ⟨x, List.mem_filter.mpr ⟨hx, ?_⟩, hheld⟩
    rw [hheld.1]
    exact hne
  | run lease pool plan job vm hlive hvm =>
    obtain ⟨st, c, hm, rfl⟩ := vmStep_cases hvm
    cases hm
    obtain ⟨x, hx, hheld⟩ := h.exec (by nofun) (by nofun) hl hrow hs hlease
    exact ⟨x, List.mem_append_left _ hx, hheld⟩
  | attempt i x hi r locked n hn vm hvm =>
    have hd : x.drops w.vm.db locked r = false := by
      simp only [keeps, hi, Option.all_some, Bool.not_eq_true'] at hk
      exact hk
    exact h.attempt hc hi hn hvm hd hl hrow hs hlease
  | pool b hb vm hvm =>
    obtain ⟨st, c, hm, rfl⟩ := vmStep_cases hvm
    refine h.exec ?_ ?_ hl hrow hs hlease
    · rintro ru fp j le lo rfl
      cases hm
      cases hb
    · rintro s ru fp wf j le rfl
      cases hm
      cases hb

end Fleet

/-- **A run in which no execution drops a VM leaks none.** -/
theorem noLeak_of_keeps (now : Nat) (as : List FleetAct)
    (h : fleetMachine.Throughout (fun w a _ => w.keeps a = true) (Fleet.start now) as) :
    fleetMachine.Throughout (fun _ _ w' => w'.NoLeak) (Fleet.start now) as := by
  have hheld : (Fleet.start now).Held := fun l hl => absurd hl List.not_mem_nil
  refine h.of_inv (Machine.Reachable.init ⟨now, rfl⟩) hheld fun w a w' hr hI hstep hk => ?_
  have hnext := hI.step (Fleet.clients_of_reachable hr) (fleet_cases hstep) hk
  exact ⟨hnext, hnext.noLeak⟩

/-! ## A job that is cut off -/

/-- An instance takes a job and creates a VM for it, up to the first step. -/
def takeVm : List FleetAct :=
  [.boot ⟨"ci-1", 180⟩, .run ⟨"ci-1", 180⟩ .single (.plain "build" []) "r.build",
    .attempt 0 (.text "fp") [], .attempt 0 .ok [], .attempt 0 .ok [], .attempt 0 .ok [],
    .attempt 0 (.text "sb-1") [], .attempt 0 .ok [], .attempt 0 .ok [], .attempt 0 .ok []]

/-- The job runs to its end. -/
def oneVm : List FleetAct :=
  takeVm ++ [.attempt 0 .ok [], .attempt 0 .ok [], .attempt 0 .ok [], .attempt 0 .ok []]

theorem noLeak_oneVm : (fleetMachine.run (Fleet.start 0) oneVm).isSome = true ∧
    fleetMachine.Throughout (fun _ _ w' => w'.NoLeak) (Fleet.start 0) oneVm :=
  ⟨by decide, noLeak_of_keeps 0 oneVm (by decide)⟩

/-- The time limit cuts the job off in its step. The instance renews its leases and reclaims, and so
does another one. -/
def cutOffInStep : List FleetAct :=
  takeVm ++ [.boot ⟨"ci-2", 180⟩, .attempt 0 (.cutOff false) [], .pool (.tick 60),
    .pool (.renewLeases ⟨"ci-1", 180⟩),
    .pool (.releaseOrphans ⟨60, .empty, .empty⟩ ["hd-1"] "ci-1")]

def cutOffVm : PooledVm :=
  ⟨"sb-1", "hd-1", "fp", "build", .claimed, some "r.build", some "r.build", some "ci-1", some 240,
    0, 0⟩

/-- Its VM stays claimed, and no reclaim can free it. -/
theorem cut_off_leaks : ¬ ∀ (now : Nat) (as : List FleetAct),
    fleetMachine.Throughout (fun _ _ w' => w'.NoLeak) (Fleet.start now) as := by
  intro h
  have hrun : (fleetMachine.run (Fleet.start 0)
      (cutOffInStep ++ [.pool (.releaseOrphans ⟨60, .empty, .empty⟩ ["hd-1"] "ci-2")])).map
      (fun w => (w.vm.db.now, w.live, w.attempts.map (·.job.id), w.vm.db.vms.rows)) =
      some (60, [⟨"ci-2", 180⟩, ⟨"ci-1", 180⟩], [], [cutOffVm]) := by decide
  obtain ⟨w', hw', hdata⟩ := Option.map_eq_some_iff.mp hrun
  rw [Machine.run_concat] at hw'
  obtain ⟨w, hw, hstep⟩ := Option.bind_eq_some_iff.mp hw'
  refine Machine.not_throughout hw hstep (fun hno => ?_) (h 0 _)
  simp only [Prod.mk.injEq] at hdata
  obtain ⟨hnow, hlive, hnobody, hrows⟩ := hdata
  have hl : (⟨"ci-1", 180⟩ : Lease) ∈ w'.live := by
    rw [hlive]
    exact List.mem_cons_of_mem _ List.mem_cons_self
  have hr : cutOffVm ∈ w'.vm.db.vms.rows := by
    rw [hrows]
    exact List.mem_cons_self
  rcases hno _ hl _ hr "r.build" rfl rfl rfl with ⟨x, hx, -⟩ | ⟨store, runners, instanceId, hits⟩
  · rw [List.map_eq_nil_iff.mp hnobody] at hx
    exact absurd hx List.not_mem_nil
  · rw [hnow] at hits
    simp [VmPool.releaseOrphans, VmPool.orphaned, cutOffVm] at hits

end HeyoCi
