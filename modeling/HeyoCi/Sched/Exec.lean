import HeyoCi.Sched.Pass

/-!
# One delivery of a job, statement by statement

`consume` takes a delivery, calls `run_job` under a time limit, records the outcome and settles the
message. An `Exec` is where that stands. What the VM does is outside: its answers are `Outcome`s.

* `QueueMsg`: a message of the work queue with how often it was delivered;
* `ExecPc`, `Exec`: the next thing an execution does;
* `Exec.move`: that thing, as a statement and the place after it;
* **`Exec.moves`**: every way an execution can move.
-/

namespace HeyoCi

/-- How often a message is delivered. -/
def maxDeliver : Nat := 4

/-- A message of the work queue. -/
structure QueueMsg where
  seq : Nat
  route : Route
  body : JobMessage
  delivered : Nat
  deriving Repr, DecidableEq

/-- How a call of an execution ends. -/
inductive Outcome where
  | ok
  | fail (e : DispatchError)
  /-- A VM was acquired. -/
  | machine (sandboxId fingerprint : String)
  /-- The steps were run, with these outputs of the job. -/
  | outputs (o : Json)
  /-- The time limit of the job cut it off. -/
  | timeout

/-- The next thing an execution does. -/
inductive ExecPc where
  | getJob
  | claimJob (plan : JobPlan) (runner : String)
  | acquireVm (plan : JobPlan) (runner : String)
  | startJob (plan : JobPlan) (runner sandboxId fingerprint : String)
  | checkout (plan : JobPlan)
  /-- Before step `k`, where cancellation is noticed. -/
  | step (plan : JobPlan) (k : Nat)
  | executing (plan : JobPlan) (k : Nat)
  | setJobOutputs (plan : JobPlan) (outputs : Json)
  /-- The steps are over, with or without an error. -/
  | setJobStatus (plan : JobPlan) (error : Option DispatchError)
  | giveUp (e : DispatchError)
  | noteJobError (e : DispatchError)
  | ack
  | nak

/-- A delivery that is being worked on. -/
structure Exec where
  seq : Nat
  body : JobMessage
  attempt : Nat
  pc : ExecPc

/-- Where an execution goes on: at a place, or to the end, having acknowledged the message or not. -/
inductive ExecNext where
  | goto (pc : ExecPc)
  | settled (acked : Bool)

structure ExecMove where
  stmt : Stmt
  next : ExecNext

namespace ExecPc

/-- Inside `run_job`, where the time limit applies. -/
def inRunJob : ExecPc → Bool
  | giveUp _ | noteJobError _ | ack | nak => false
  | _ => true

/-- Inside `run_job`, after `claim_job`. -/
def working : ExecPc → Bool
  | acquireVm .. | startJob .. | checkout _ | step .. | executing .. | setJobOutputs ..
  | setJobStatus .. => true
  | _ => false

end ExecPc

namespace Exec

/-- The status `run_claimed` records. -/
def finalStatus (plan : JobPlan) : Option DispatchError → JobStatus
  | none => .success
  | some (.cancelled _) => .cancelled
  | some _ => if plan.continueOnError then .success else .failure

/-- `run_job` returned an error: the last delivery gives up, another is put back. -/
def failed (x : Exec) (e : DispatchError) : ExecNext :=
  if maxDeliver ≤ x.attempt then .goto (.giveUp e) else .goto (.noteJobError e)

/-- `backoff_for`, in seconds. -/
def backoffFor (attempt : Nat) : Nat := if attempt ≤ 1 then 60 else if attempt = 2 then 300 else 900

/-- The next step of an execution. -/
def move (env : Env) (pool : Pool) (db : Db) (x : Exec) (o : Outcome) : ExecMove :=
  match x.pc, o with
  | .ack, .fail _ => ⟨.read, .settled false⟩
  | .ack, _ => ⟨.read, .settled true⟩
  | .nak, _ => ⟨.read, .settled false⟩
  -- the errors of these two writes are dropped
  | .giveUp _, .fail _ => ⟨.read, .goto .ack⟩
  | .giveUp e, _ => ⟨.setJobStatus x.body.jobId .failure
      (some s!"giving up after {x.attempt} attempts: {e.text}"), .goto .ack⟩
  | .noteJobError _, .fail _ => ⟨.read, .goto .nak⟩
  | .noteJobError e, _ => ⟨.noteJobError x.body.jobId
      s!"attempt {x.attempt} of {maxDeliver} failed: {e.text}. Retrying in {backoffFor x.attempt}s.",
      .goto .nak⟩
  | _, .timeout => ⟨.read, x.failed (.jobTimeout x.body.jobKey env.maxJobSeconds)⟩
  -- an error of the steps is the outcome of the job, any other one leaves `run_job`
  | .checkout plan, .fail e | .step plan _, .fail e | .executing plan _, .fail e =>
    ⟨.read, .goto (.setJobStatus plan (some e))⟩
  | _, .fail e => ⟨.read, x.failed e⟩
  | .getJob, _ => match db.getJob x.body.jobId with
    | none => ⟨.read, x.failed (.unknownJob x.body.jobId)⟩
    | some row => if row.status.isTerminal then ⟨.read, .goto .ack⟩
      else match row.plan with
        | .error e => ⟨.read, x.failed (.badPlan e)⟩
        | .ok plan => match pickRunner pool plan with
          | .error e => ⟨.read, x.failed e⟩
          | .ok (runner, _) => ⟨.read, .goto (.claimJob plan runner)⟩
  | .claimJob plan runner, _ => ⟨.claimJob x.body.jobId runner x.attempt,
      if db.affectsJobs (.claimJob x.body.jobId runner x.attempt)
      then .goto (.acquireVm plan runner) else .goto .ack⟩
  | .acquireVm plan runner, .machine sandbox fp => ⟨.read, .goto (.startJob plan runner sandbox fp)⟩
  | .acquireVm plan runner, _ => ⟨.read, .goto (.acquireVm plan runner)⟩
  | .startJob plan runner sandbox fp, _ => ⟨.startJob x.body.jobId runner sandbox fp x.attempt,
      if db.affectsJobs (.startJob x.body.jobId runner sandbox fp x.attempt)
      then .goto (.checkout plan) else .goto .ack⟩
  | .checkout plan, _ => ⟨.read, .goto (.step plan 0)⟩
  | .step plan k, .outputs outputs =>
    ⟨.read, .goto (if k < plan.steps.length then .step plan k else .setJobOutputs plan outputs)⟩
  | .step plan k, _ =>
    if k < plan.steps.length then
      if db.isJobCancelled x.body.jobId
      then ⟨.read, .goto (.setJobStatus plan (some (.cancelled plan.key)))⟩
      else ⟨.read, .goto (.executing plan k)⟩
    else ⟨.read, .goto (.step plan k)⟩
  | .executing plan k, _ => ⟨.read, .goto (.step plan (k + 1))⟩
  | .setJobOutputs plan outputs, _ => ⟨.setJobOutputs x.body.jobId outputs,
      .goto (.setJobStatus plan none)⟩
  | .setJobStatus plan error, _ => ⟨.setJobStatus x.body.jobId (finalStatus plan error)
      (error.map (·.text)), .goto .ack⟩

/-- What a step of an execution can be. -/
inductive Moves (db : Db) (x : Exec) : ExecMove → Prop
  | settle (h : x.pc = .ack) (acked : Bool) : Moves db x ⟨.read, .settled acked⟩
  | nak (h : x.pc = .nak) : Moves db x ⟨.read, .settled false⟩
  | giveUp (e : DispatchError) (h : x.pc = .giveUp e) (t : Option String) :
      Moves db x ⟨.setJobStatus x.body.jobId .failure t, .goto .ack⟩
  | giveUpLost (e : DispatchError) (h : x.pc = .giveUp e) : Moves db x ⟨.read, .goto .ack⟩
  | note (e : DispatchError) (h : x.pc = .noteJobError e) (t : String) :
      Moves db x ⟨.noteJobError x.body.jobId t, .goto .nak⟩
  | noteLost (e : DispatchError) (h : x.pc = .noteJobError e) : Moves db x ⟨.read, .goto .nak⟩
  | failed (h : x.pc.inRunJob = true) (e : DispatchError) : Moves db x ⟨.read, x.failed e⟩
  | over (h : x.pc = .getJob) (row : JobRow) (hrow : db.getJob x.body.jobId = some row)
      (ht : row.status.isTerminal = true) : Moves db x ⟨.read, .goto .ack⟩
  | picked (h : x.pc = .getJob) (row : JobRow) (hrow : db.getJob x.body.jobId = some row)
      (plan : JobPlan) (hp : row.plan = .ok plan) (runner : String) :
      Moves db x ⟨.read, .goto (.claimJob plan runner)⟩
  | claimed (plan : JobPlan) (runner : String) (h : x.pc = .claimJob plan runner)
      (ha : db.affectsJobs (.claimJob x.body.jobId runner x.attempt) = true) :
      Moves db x ⟨.claimJob x.body.jobId runner x.attempt, .goto (.acquireVm plan runner)⟩
  | claimLost (plan : JobPlan) (runner : String) (h : x.pc = .claimJob plan runner)
      (ha : db.affectsJobs (.claimJob x.body.jobId runner x.attempt) = false) :
      Moves db x ⟨.claimJob x.body.jobId runner x.attempt, .goto .ack⟩
  | work (h : x.pc.working = true) (pc : ExecPc) (hpc : pc.working = true) :
      Moves db x ⟨.read, .goto pc⟩
  | started (plan : JobPlan) (runner sandbox fp : String)
      (h : x.pc = .startJob plan runner sandbox fp)
      (ha : db.affectsJobs (.startJob x.body.jobId runner sandbox fp x.attempt) = true) :
      Moves db x ⟨.startJob x.body.jobId runner sandbox fp x.attempt, .goto (.checkout plan)⟩
  | startLost (plan : JobPlan) (runner sandbox fp : String)
      (h : x.pc = .startJob plan runner sandbox fp)
      (ha : db.affectsJobs (.startJob x.body.jobId runner sandbox fp x.attempt) = false) :
      Moves db x ⟨.startJob x.body.jobId runner sandbox fp x.attempt, .goto .ack⟩
  | outputs (plan : JobPlan) (o : Json) (h : x.pc = .setJobOutputs plan o) :
      Moves db x ⟨.setJobOutputs x.body.jobId o, .goto (.setJobStatus plan none)⟩
  | finish (plan : JobPlan) (e : Option DispatchError) (h : x.pc = .setJobStatus plan e)
      (t : Option String) :
      Moves db x ⟨.setJobStatus x.body.jobId (finalStatus plan e) t, .goto .ack⟩

theorem finalStatus_cases (plan : JobPlan) (e : Option DispatchError) :
    finalStatus plan e = .success ∨ finalStatus plan e = .failure ∨
      finalStatus plan e = .cancelled := by
  unfold finalStatus
  split
  · exact Or.inl rfl
  · exact Or.inr (Or.inr rfl)
  · split_ifs
    · exact Or.inl rfl
    · exact Or.inr (Or.inl rfl)

section Answered

variable (env : Env) (pool : Pool) (db : Db) (seq : Nat) (body : JobMessage) (attempt : Nat)

theorem moves_getJob : Moves db ⟨seq, body, attempt, .getJob⟩
    (move env pool db ⟨seq, body, attempt, .getJob⟩ .ok) := by
  unfold move
  simp only
  cases hrow : db.getJob body.jobId with
  | none => exact .failed rfl _
  | some row =>
    simp only
    split_ifs with ht
    · exact .over rfl row hrow ht
    · cases hp : row.plan with
      | error e => exact .failed rfl _
      | ok plan =>
        simp only
        cases hr : pickRunner pool plan with
        | error e => exact .failed rfl _
        | ok rv => exact .picked rfl row hrow plan hp rv.1

theorem moves_claimJob (plan : JobPlan) (runner : String) :
    Moves db ⟨seq, body, attempt, .claimJob plan runner⟩
      (move env pool db ⟨seq, body, attempt, .claimJob plan runner⟩ .ok) := by
  unfold move
  simp only
  split_ifs with ha
  · exact .claimed plan runner rfl ha
  · exact .claimLost plan runner rfl (by simpa using ha)

theorem moves_startJob (plan : JobPlan) (runner sandbox fp : String) :
    Moves db ⟨seq, body, attempt, .startJob plan runner sandbox fp⟩
      (move env pool db ⟨seq, body, attempt, .startJob plan runner sandbox fp⟩ .ok) := by
  unfold move
  simp only
  split_ifs with ha
  · exact .started plan runner sandbox fp rfl ha
  · exact .startLost plan runner sandbox fp rfl (by simpa using ha)

theorem moves_step (plan : JobPlan) (k : Nat) : Moves db ⟨seq, body, attempt, .step plan k⟩
    (move env pool db ⟨seq, body, attempt, .step plan k⟩ .ok) := by
  unfold move
  simp only
  split_ifs <;> exact .work rfl _ rfl

end Answered

/-- **Every way an execution can move.** -/
theorem moves (env : Env) (pool : Pool) (db : Db) (x : Exec) (o : Outcome) :
    Moves db x (x.move env pool db o) := by
  obtain ⟨seq, body, attempt, pc⟩ := x
  cases pc with
  | ack => cases o <;> exact .settle rfl _
  | nak => cases o <;> exact .nak rfl
  | giveUp e => cases o with
    | fail => exact .giveUpLost e rfl
    | _ => exact .giveUp e rfl _
  | noteJobError e => cases o with
    | fail => exact .noteLost e rfl
    | _ => exact .note e rfl _
  | getJob => cases o with
    | fail | timeout => exact .failed rfl _
    | _ => exact moves_getJob env pool db seq body attempt
  | claimJob plan runner => cases o with
    | fail | timeout => exact .failed rfl _
    | _ => exact moves_claimJob env pool db seq body attempt plan runner
  | acquireVm plan runner => cases o with
    | fail | timeout => exact .failed rfl _
    | _ => exact .work rfl _ rfl
  | startJob plan runner sandbox fp => cases o with
    | fail | timeout => exact .failed rfl _
    | _ => exact moves_startJob env pool db seq body attempt plan runner sandbox fp
  | checkout plan => cases o with
    | timeout => exact .failed rfl _
    | _ => exact .work rfl _ rfl
  | step plan k => cases o with
    | timeout => exact .failed rfl _
    | fail => exact .work rfl _ rfl
    | outputs =>
      refine .work rfl _ ?_
      split_ifs <;> rfl
    | _ => exact moves_step env pool db seq body attempt plan k
  | executing plan k => cases o with
    | timeout => exact .failed rfl _
    | _ => exact .work rfl _ rfl
  | setJobOutputs plan outputs => cases o with
    | fail | timeout => exact .failed rfl _
    | _ => exact .outputs plan outputs rfl
  | setJobStatus plan e => cases o with
    | fail | timeout => exact .failed rfl _
    | _ => exact .finish plan e rfl _

end Exec

end HeyoCi
