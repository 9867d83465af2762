import Mathlib.Data.List.MinMax
import HeyoCi.Store.Rows

/-!
# The statements of the warm pool

The pool of VMs is one table, and each of its operations is one statement under the clock of the
database. A VM is held under a lease: whose it is, and until when without a renewal.

* `PooledVm`, `Lease`, `PoolDb`: the columns of `ci_vm_pool`, a claim on a row, the table;
* `VmPool.claim`, `VmPool.register`, `VmPool.release`, …: the writes;
* `VmStmt`, `PoolDb.exec`: the statements as data, and running one;
* **`VmStmt.moves`**: everything a statement can do to a row it keeps;
* `PoolDb.mem_exec`, `PoolDb.claimed_exec`: which rows there are after a statement, and which of
  them are claimed.
-/

namespace HeyoCi

inductive VmStatus where
  | building
  | idle
  | claimed
  | draining
  deriving Repr, DecidableEq

/-- Who holds a VM, and how long the claim is good for without a renewal, in seconds. -/
structure Lease where
  instanceId : String
  ttl : Nat
  deriving Repr, DecidableEq

/-- A row of `ci_vm_pool`. -/
structure PooledVm where
  sandboxId : String
  runnerHdId : String
  fingerprint : String
  workflowId : String
  status : VmStatus
  claimedByJob : Option String
  lastJob : Option String
  leasedBy : Option String
  leasedUntil : Option Nat
  createdAt : Nat
  lastUsedAt : Nat
  deriving Repr, DecidableEq

/-- The pool and the clock of its database. -/
structure PoolDb where
  now : Nat
  vms : Table PooledVm.sandboxId

/-- Which rows a sweep takes out of circulation. -/
inductive Sweep where
  /-- `take_one_for_sweep`. -/
  | one (sandboxId : String) (runners : List String)
  /-- `take_failed_for_sweep`, with the tables its join reads. -/
  | failed (store : Db) (runners locked : List String)
  /-- `take_for_sweep`. -/
  | stale (runners liveFingerprints : List String) (idleForSecs : Int) (locked : List String)

/-! ## Writes -/

namespace VmPool

/-- The key of a VM that is not created yet. -/
def buildingId (jobId : String) : String := s!"building-{jobId}"

theorem prefix_buildingId (jobId : String) : "building-".toList <+: (buildingId jobId).toList := by
  simp [buildingId, toString]

/-- The row picked by the inner select is claimed. -/
def claim (now : Nat) (picked : Option String) (jobId : String) (lease : Lease) :
    Table.Update PooledVm.sandboxId where
  hits r := picked = some r.sandboxId
  set r := { r with status := .claimed, claimedByJob := some jobId, lastUsedAt := now,
                    lastJob := some jobId, leasedBy := some lease.instanceId,
                    leasedUntil := some (now + lease.ttl) }
  key_set _ := rfl

/-- The row `begin_build` and `register` insert, by its status. -/
def newRow (now : Nat) (status : VmStatus) (sandboxId runner fingerprint workflowId jobId : String)
    (lease : Lease) : PooledVm where
  sandboxId := sandboxId
  runnerHdId := runner
  fingerprint := fingerprint
  workflowId := workflowId
  status := status
  claimedByJob := some jobId
  lastJob := some jobId
  leasedBy := some lease.instanceId
  leasedUntil := some (now + lease.ttl)
  createdAt := now
  lastUsedAt := now

/-- The conflict branch of `begin_build`. -/
def beginBuild (now : Nat) (jobId runner fingerprint workflowId : String) (lease : Lease) :
    Table.Update PooledVm.sandboxId where
  hits r := r.sandboxId = buildingId jobId
  set r := { r with status := .building, runnerHdId := runner, fingerprint := fingerprint,
                    workflowId := workflowId, claimedByJob := some jobId, lastJob := some jobId,
                    lastUsedAt := now, leasedBy := some lease.instanceId,
                    leasedUntil := some (now + lease.ttl) }
  key_set _ := rfl

/-- The conflict branch of `register`. -/
def register (now : Nat) (sandboxId jobId : String) (lease : Lease) :
    Table.Update PooledVm.sandboxId where
  hits r := r.sandboxId = sandboxId
  set r := { r with status := .claimed, claimedByJob := some jobId, lastJob := some jobId,
                    lastUsedAt := now, leasedBy := some lease.instanceId,
                    leasedUntil := some (now + lease.ttl) }
  key_set _ := rfl

/-- Neither this write nor `forget` looks at who holds the row. -/
def release (now : Nat) (sandboxId : String) : Table.Update PooledVm.sandboxId where
  hits r := r.sandboxId = sandboxId
  set r := { r with status := .idle, claimedByJob := none, lastUsedAt := now, leasedBy := none,
                    leasedUntil := none }
  key_set _ := rfl

def forget (sandboxId : String) (r : PooledVm) : Bool := r.sandboxId = sandboxId

def renewLeases (now : Nat) (lease : Lease) : Table.Update PooledVm.sandboxId where
  hits r := r.leasedBy = some lease.instanceId && (r.status = .claimed || r.status = .building)
  set r := { r with leasedUntil := some (now + lease.ttl) }
  key_set _ := rfl

/-- Whether a job is on record as not finished. -/
def working (store : Db) (jobId : String) : Bool :=
  store.jobs.rows.any fun j => j.id = jobId && !j.status.isTerminal

/-- Whether nobody is renewing a claim: its lease has run out, or it never had one and its job is
over. -/
def orphaned (store : Db) (now : Nat) (r : PooledVm) : Bool :=
  match r.leasedUntil with
  | some t => t < now
  | none => !(r.claimedByJob.any (working store))

def releaseOrphans (store : Db) (now : Nat) (runners : List String) (instanceId : String) :
    Table.Update PooledVm.sandboxId where
  hits r := r.status = .claimed && runners.contains r.runnerHdId &&
    r.leasedBy ≠ some instanceId && orphaned store now r
  set r := { r with status := .idle, claimedByJob := none, leasedBy := none, leasedUntil := none }
  key_set _ := rfl

def sweepStaleBuilds (now : Nat) (runners : List String) (instanceId : String) (r : PooledVm) :
    Bool :=
  r.status = .building && runners.contains r.runnerHdId && r.leasedBy ≠ some instanceId &&
    r.leasedUntil.all (· < now)

/-- Whether the run that last used a VM failed or was cancelled. -/
def lastFailed (store : Db) (r : PooledVm) : Bool :=
  store.jobs.rows.any fun j => r.lastJob = some j.id &&
    store.runs.rows.any fun run => run.id = j.runId &&
      (run.status = .failure || run.status = .cancelled)

/-- The rows a sweep takes. -/
def swept (now : Nat) : Sweep → PooledVm → Bool
  | .one sandboxId runners, r => r.sandboxId = sandboxId && runners.contains r.runnerHdId &&
      r.status ≠ .claimed && r.status ≠ .building
  | .failed store runners locked, r => r.status = .idle && runners.contains r.runnerHdId &&
      !locked.contains r.sandboxId && lastFailed store r
  | .stale runners live idleFor locked, r => r.status = .idle && runners.contains r.runnerHdId &&
      !locked.contains r.sandboxId &&
      (!live.contains r.fingerprint || (r.lastUsedAt : Int) < now - idleFor)

/-- The write all sweeps share. -/
def take (now : Nat) (s : Sweep) : Table.Update PooledVm.sandboxId where
  hits r := swept now s r
  set r := { r with status := .draining }
  key_set _ := rfl

end VmPool

/-! ## Statements as data -/

/-- A write of the pool, or a read, which writes nothing. -/
inductive VmStmt where
  | read
  | tick (d : Nat)
  /-- With the rows that other statements hold locked. -/
  | claim (runner fingerprint jobId : String) (lease : Lease) (locked : List String)
  | beginBuild (jobId runner fingerprint workflowId : String) (lease : Lease)
  | register (sandboxId runner fingerprint workflowId jobId : String) (lease : Lease)
  | release (sandboxId : String)
  | forget (sandboxId : String)
  | renewLeases (lease : Lease)
  | releaseOrphans (store : Db) (runners : List String) (instanceId : String)
  | sweepStaleBuilds (runners : List String) (instanceId : String)
  | take (s : Sweep)

namespace PoolDb

/-- The inner select of `claim`: the idle VM of this shape used last, among those not locked. -/
def pick (db : PoolDb) (runner fingerprint : String) (locked : List String) : Option String :=
  ((db.vms.rows.filter fun r => r.runnerHdId = runner && r.fingerprint = fingerprint &&
    r.status = .idle && !locked.contains r.sandboxId).argmax (·.lastUsedAt)).map (·.sandboxId)

theorem idle_of_pick {db : PoolDb} {runner fingerprint s : String} {locked : List String}
    (h : db.pick runner fingerprint locked = some s) :
    ∃ r ∈ db.vms.rows, r.sandboxId = s ∧ r.status = .idle := by
  obtain ⟨r, hr, rfl⟩ := Option.map_eq_some_iff.mp h
  obtain ⟨hmem, hp⟩ := List.mem_filter.mp (List.argmax_mem hr)
  simp only [Bool.and_eq_true, decide_eq_true_eq] at hp
  exact ⟨r, hmem, rfl, hp.1.2⟩

/-- No claimed, building or draining VM is picked. -/
theorem status_of_pick {db : PoolDb} {runner fingerprint : String} {locked : List String}
    {r : PooledVm} (hr : r ∈ db.vms.rows)
    (h : db.pick runner fingerprint locked = some r.sandboxId) : r.status = .idle := by
  obtain ⟨r', hr', hid, hs⟩ := idle_of_pick h
  rwa [db.vms.eq_of_key hr' hr hid] at hs

end PoolDb

namespace VmStmt

/-- The `UPDATE` a statement makes, also on a conflict of its key. -/
def onVms (db : PoolDb) : VmStmt → Table.Update PooledVm.sandboxId
  | claim runner fp jobId lease locked =>
    VmPool.claim db.now (db.pick runner fp locked) jobId lease
  | beginBuild jobId runner fp wf lease => VmPool.beginBuild db.now jobId runner fp wf lease
  | register sandboxId _ _ _ jobId lease => VmPool.register db.now sandboxId jobId lease
  | release sandboxId => VmPool.release db.now sandboxId
  | renewLeases lease => VmPool.renewLeases db.now lease
  | releaseOrphans store runners instanceId =>
    VmPool.releaseOrphans store db.now runners instanceId
  | take s => VmPool.take db.now s
  | _ => .none

/-- The row a statement inserts when its key is free. -/
def newRow (now : Nat) : VmStmt → Option PooledVm
  | beginBuild jobId runner fp wf lease =>
    some (VmPool.newRow now .building (VmPool.buildingId jobId) runner fp wf jobId lease)
  | register sandboxId runner fp wf jobId lease =>
    some (VmPool.newRow now .claimed sandboxId runner fp wf jobId lease)
  | _ => none

/-- The rows a statement deletes. -/
def deletes (now : Nat) : VmStmt → PooledVm → Bool
  | forget sandboxId => VmPool.forget sandboxId
  | sweepStaleBuilds runners instanceId => VmPool.sweepStaleBuilds now runners instanceId
  | _ => fun _ => false

/-- The sandboxes a sweep returns. -/
def taken (db : PoolDb) : VmStmt → List String
  | take s => (db.vms.rows.filter (VmPool.swept db.now s)).map (·.sandboxId)
  | _ => []

end VmStmt

namespace PoolDb

/-- Run a statement. -/
def exec (db : PoolDb) : VmStmt → PoolDb
  | .tick d => { db with now := db.now + d }
  | st => { db with vms := match st.newRow db.now with
      | some r => db.vms.upsert r (st.onVms db)
      | none => (db.vms.delete (st.deletes db.now)).update (st.onVms db) }

variable {db : PoolDb} {st : VmStmt}

/-- **The rows after a statement**: the old ones that were not deleted, updated, and the one
inserted. -/
theorem mem_exec {r' : PooledVm} : r' ∈ (db.exec st).vms.rows ↔
    (∃ r ∈ db.vms.rows, st.deletes db.now r = false ∧ (st.onVms db).row r = r') ∨
      (db.vms.find r'.sandboxId = none ∧ st.newRow db.now = some r') := by
  cases st with
  | tick d => simp [exec, VmStmt.deletes, VmStmt.onVms, VmStmt.newRow]
  | beginBuild jobId runner fp wf lease =>
    have hu : ∀ r₀, ((VmStmt.beginBuild jobId runner fp wf lease).onVms db).hits r₀ = true →
        r₀.sandboxId = VmPool.buildingId jobId := fun r₀ h => of_decide_eq_true h
    refine (Table.mem_upsert hu).trans (or_congr ?_ ?_)
    · simp [VmStmt.deletes]
    · simp only [VmStmt.newRow, Option.some.injEq]
      exact ⟨by rintro ⟨h, rfl⟩; exact ⟨h, rfl⟩, by rintro ⟨h, rfl⟩; exact ⟨h, rfl⟩⟩
  | register sandboxId runner fp wf jobId lease =>
    have hu : ∀ r₀, ((VmStmt.register sandboxId runner fp wf jobId lease).onVms db).hits r₀ = true →
        r₀.sandboxId = sandboxId := fun r₀ h => of_decide_eq_true h
    refine (Table.mem_upsert hu).trans (or_congr ?_ ?_)
    · simp [VmStmt.deletes]
    · simp only [VmStmt.newRow, Option.some.injEq]
      exact ⟨by rintro ⟨h, rfl⟩; exact ⟨h, rfl⟩, by rintro ⟨h, rfl⟩; exact ⟨h, rfl⟩⟩
  | _ => simp [exec, VmStmt.newRow, Table.mem_update, Table.mem_delete, and_assoc]

end PoolDb

/-! ## What a statement does to a row -/

/-- `st.Moves db r r'`: the statement may make `r'` of the row `r`. -/
inductive VmStmt.Moves (db : PoolDb) (r : PooledVm) : VmStmt → PooledVm → Prop
  | keep (st : VmStmt) : Moves db r st r
  | claim (runner fp jobId : String) (lease : Lease) (locked : List String)
      (h : db.pick runner fp locked = some r.sandboxId) (hs : r.status = .idle) :
      Moves db r (.claim runner fp jobId lease locked)
        ((VmPool.claim db.now (some r.sandboxId) jobId lease).set r)
  | build (jobId runner fp wf : String) (lease : Lease)
      (h : r.sandboxId = VmPool.buildingId jobId) :
      Moves db r (.beginBuild jobId runner fp wf lease)
        ((VmPool.beginBuild db.now jobId runner fp wf lease).set r)
  | register (runner fp wf jobId : String) (lease : Lease) :
      Moves db r (.register r.sandboxId runner fp wf jobId lease)
        ((VmPool.register db.now r.sandboxId jobId lease).set r)
  | release : Moves db r (.release r.sandboxId) ((VmPool.release db.now r.sandboxId).set r)
  | renew (lease : Lease) (h : r.leasedBy = some lease.instanceId) :
      Moves db r (.renewLeases lease) ((VmPool.renewLeases db.now lease).set r)
  | orphan (store : Db) (runners : List String) (instanceId : String) (h : r.status = .claimed)
      (ho : VmPool.orphaned store db.now r = true) :
      Moves db r (.releaseOrphans store runners instanceId)
        ((VmPool.releaseOrphans store db.now runners instanceId).set r)
  | drain (s : Sweep) (ht : r.sandboxId ∈ VmStmt.taken db (.take s)) (hc : r.status ≠ .claimed)
      (hb : r.status ≠ .building) : Moves db r (.take s) ((VmPool.take db.now s).set r)

theorem VmPool.status_of_swept {now : Nat} {s : Sweep} {r : PooledVm} (h : swept now s r = true) :
    r.status ≠ .claimed ∧ r.status ≠ .building := by
  cases s with
  | one =>
    simp only [swept, Bool.and_eq_true, decide_eq_true_eq] at h
    exact ⟨h.1.2, h.2⟩
  | failed | stale =>
    simp only [swept, Bool.and_eq_true, decide_eq_true_eq] at h
    rw [h.1.1.1]
    exact ⟨nofun, nofun⟩

/-- **Everything a statement can do to a row it does not delete.** -/
theorem VmStmt.moves (db : PoolDb) (st : VmStmt) {r : PooledVm} (hr : r ∈ db.vms.rows) :
    VmStmt.Moves db r st ((st.onVms db).row r) := by
  by_cases hits : (st.onVms db).hits r = true
  · rw [Table.Update.row_of_hits hits]
    cases st with
    | claim runner fp jobId lease locked =>
      have hpick := of_decide_eq_true hits
      exact .claim runner fp jobId lease locked hpick (PoolDb.status_of_pick hr hpick)
    | beginBuild jobId runner fp wf lease =>
      exact .build jobId runner fp wf lease (of_decide_eq_true hits)
    | register sandboxId runner fp wf jobId lease =>
      obtain rfl : r.sandboxId = sandboxId := of_decide_eq_true hits
      exact .register runner fp wf jobId lease
    | release sandboxId =>
      obtain rfl : r.sandboxId = sandboxId := of_decide_eq_true hits
      exact .release
    | renewLeases lease =>
      simp only [onVms, VmPool.renewLeases, Bool.and_eq_true, decide_eq_true_eq] at hits
      exact .renew lease hits.1
    | releaseOrphans store runners instanceId =>
      simp only [onVms, VmPool.releaseOrphans, Bool.and_eq_true, decide_eq_true_eq] at hits
      exact .orphan store runners instanceId hits.1.1.1 hits.2
    | take s =>
      obtain ⟨hc, hb⟩ := VmPool.status_of_swept hits
      exact .drain s (List.mem_map_of_mem (List.mem_filter.mpr ⟨hr, hits⟩)) hc hb
    | _ => exact .keep _
  · rw [Table.Update.row_of_not_hits (by simpa using hits)]
    exact .keep st

theorem VmStmt.Moves.sandboxId {db : PoolDb} {st : VmStmt} {r r' : PooledVm}
    (h : VmStmt.Moves db r st r') : r'.sandboxId = r.sandboxId := by
  cases h <;> rfl

/-- A row after a statement was there before, moved, or is the one inserted. -/
theorem PoolDb.cases_exec {db : PoolDb} {st : VmStmt} {r' : PooledVm}
    (h : r' ∈ (db.exec st).vms.rows) :
    (∃ r ∈ db.vms.rows, st.deletes db.now r = false ∧ VmStmt.Moves db r st r') ∨
      (db.vms.find r'.sandboxId = none ∧ st.newRow db.now = some r') := by
  rcases mem_exec.mp h with ⟨r, hr, hd, rfl⟩ | hnew
  · exact Or.inl ⟨r, hr, hd, st.moves db hr⟩
  · exact Or.inr hnew

/-- **Where a claim comes from**: it was there and was not given back, or the statement is a `claim`
that picked the row, or its `register`. -/
theorem PoolDb.claimed_exec {db : PoolDb} {st : VmStmt} {r' : PooledVm}
    (h : r' ∈ (db.exec st).vms.rows) (hc : r'.status = .claimed) :
    (∃ r ∈ db.vms.rows, r.sandboxId = r'.sandboxId ∧ r.status = .claimed ∧
      r.claimedByJob = r'.claimedByJob ∧ r.leasedBy = r'.leasedBy ∧
      st ≠ .release r'.sandboxId ∧ st ≠ .forget r'.sandboxId) ∨
    (∃ runner fp jobId lease locked, st = .claim runner fp jobId lease locked ∧
      db.pick runner fp locked = some r'.sandboxId ∧ r'.claimedByJob = some jobId ∧
      r'.leasedBy = some lease.instanceId) ∨
    (∃ runner fp wf jobId lease, st = .register r'.sandboxId runner fp wf jobId lease ∧
      r'.claimedByJob = some jobId ∧ r'.leasedBy = some lease.instanceId) := by
  rcases mem_exec.mp h with ⟨r, hr, hd, rfl⟩ | ⟨-, hnew⟩
  · have hkey := (st.onVms db).key_row r
    have hrel : st ≠ .release ((st.onVms db).row r).sandboxId := by
      intro hst
      rw [hkey] at hst
      rw [hst, Table.Update.row_of_hits (by simp [VmStmt.onVms, VmPool.release])] at hc
      cases hc
    have hfor : st ≠ .forget ((st.onVms db).row r).sandboxId := by
      intro hst
      rw [hkey] at hst
      rw [hst] at hd
      simp [VmStmt.deletes, VmPool.forget] at hd
    have hmv := st.moves db hr
    revert hc hrel hfor hmv
    generalize (st.onVms db).row r = r'
    intro hc hrel hfor hmv
    cases hmv with
    | keep | renew => exact Or.inl ⟨r, hr, rfl, hc, rfl, rfl, hrel, hfor⟩
    | claim runner fp jobId lease locked hp hs =>
      exact Or.inr (Or.inl ⟨runner, fp, jobId, lease, locked, rfl, hp, rfl, rfl⟩)
    | register runner fp wf jobId lease =>
      exact Or.inr (Or.inr ⟨runner, fp, wf, jobId, lease, rfl, rfl, rfl⟩)
    | build | release | orphan | drain => cases hc
  · cases st with
    | register sandboxId runner fp wf jobId lease =>
      cases hnew
      exact Or.inr (Or.inr ⟨runner, fp, wf, jobId, lease, rfl, rfl, rfl⟩)
    | beginBuild =>
      cases hnew
      cases hc
    | _ => cases hnew

end HeyoCi
