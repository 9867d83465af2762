import HeyoCi.Lib.Table
import HeyoCi.Plan

/-!
# The rows of the store

* `JobStatus`, `RunStatus` with the terminal ones;
* `Changes`: what a run's commit touches;
* `Run`, `JobRow`: the columns of `ci_run` and `ci_job`;
* `Db`: the two tables and the clock of the database.
-/

namespace HeyoCi

inductive JobStatus where
  | pending
  | queued
  | running
  | success
  | failure
  | skipped
  | cancelled
  deriving Repr, DecidableEq

namespace JobStatus

def asStr : JobStatus → String
  | pending => "pending"
  | queued => "queued"
  | running => "running"
  | success => "success"
  | failure => "failure"
  | skipped => "skipped"
  | cancelled => "cancelled"

def isTerminal : JobStatus → Bool
  | success | failure | skipped | cancelled => true
  | pending | queued | running => false

end JobStatus

inductive RunStatus where
  | queued
  | running
  | success
  | failure
  | cancelled
  deriving Repr, DecidableEq

/-- The statuses `status NOT IN ('success','failure','cancelled')` leaves out. -/
def RunStatus.isTerminal : RunStatus → Bool
  | success | failure | cancelled => true
  | queued | running => false

/-- What a run's commit changed. -/
inductive Changes where
  | known (paths : List String)
  | unknown (reason : String)
  deriving Repr, DecidableEq

namespace Changes

def paths : Changes → List String
  | known ps => ps
  | unknown _ => []

def isKnown : Changes → Bool
  | known _ => true
  | unknown _ => false

def reason : Changes → Option String
  | known _ => none
  | unknown r => some r

end Changes

/-- A row of `ci_run`. -/
structure Run where
  id : String
  workflowId : String
  workflowPath : String
  workflowName : Option String
  repoUrl : String
  repoId : Option String
  gitRef : String
  sha : String
  beforeSha : String
  changes : Changes
  status : RunStatus
  error : Option String
  createdAt : Nat
  startedAt : Option Nat
  finishedAt : Option Nat
  deriving Repr

/-- A row of `ci_job`. -/
structure JobRow where
  id : String
  runId : String
  jobKey : String
  baseId : String
  display : String
  network : Option String
  runnerHdId : Option String
  fingerprint : Option String
  sandboxId : Option String
  status : JobStatus
  attempt : Nat
  mtx : Json.Obj
  outputs : Json
  /-- The stored plan, or why it cannot be read back. -/
  plan : Except String JobPlan
  error : Option String
  createdAt : Nat
  queuedAt : Option Nat
  startedAt : Option Nat
  finishedAt : Option Nat

/-- The tables of the scheduler. -/
structure Db where
  now : Nat
  runs : Table Run.id
  jobs : Table JobRow.id

/-- The columns no statement assigns after the insert. -/
structure JobRow.Same (j j' : JobRow) : Prop where
  id : j'.id = j.id
  runId : j'.runId = j.runId
  jobKey : j'.jobKey = j.jobKey
  baseId : j'.baseId = j.baseId
  network : j'.network = j.network
  plan : j'.plan = j.plan
  createdAt : j'.createdAt = j.createdAt

namespace JobRow.Same

theorem refl (j : JobRow) : j.Same j := ⟨rfl, rfl, rfl, rfl, rfl, rfl, rfl⟩

theorem symm {j j' : JobRow} (h : j.Same j') : j'.Same j where
  id := h.id.symm
  runId := h.runId.symm
  jobKey := h.jobKey.symm
  baseId := h.baseId.symm
  network := h.network.symm
  plan := h.plan.symm
  createdAt := h.createdAt.symm

theorem trans {j j' j'' : JobRow} (h : j.Same j') (h' : j'.Same j'') : j.Same j'' where
  id := h'.id.trans h.id
  runId := h'.runId.trans h.runId
  jobKey := h'.jobKey.trans h.jobKey
  baseId := h'.baseId.trans h.baseId
  network := h'.network.trans h.network
  plan := h'.plan.trans h.plan
  createdAt := h'.createdAt.trans h.createdAt

end JobRow.Same

end HeyoCi
