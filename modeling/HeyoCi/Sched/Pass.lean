import HeyoCi.Dispatch.Decide

/-!
# One scheduler pass, statement by statement

`advance_run` is a sequence of statements and publishes, and other actors run between any two of
them. A `Pass` is where one call of it stands.

* `JobMessage`, `Reply`: what is published, and how a statement or a publish can end;
* `PassPc`, `Pass`: the next thing a pass does, with what it has read so far;
* `Pass.move`: that thing, as a statement, the place after it and a message sent;
* **`Pass.moves`**: every way a pass can move.
-/

namespace HeyoCi

/-- What a queue message carries. -/
structure JobMessage where
  runId : String
  jobId : String
  jobKey : String
  deriving Repr, DecidableEq

/-- How a statement or a publish ends for the actor that made it. -/
inductive Reply where
  | ok
  /-- A publish the stream takes for one it has: acknowledged, not stored. -/
  | duplicate
  /-- Nothing happened, and the actor sees an error. -/
  | fail
  /-- A publish that was stored, though the actor sees an error. -/
  | unacked
  deriving Repr, DecidableEq

/-- The next thing a pass does. -/
inductive PassPc where
  | jobsOf
  | needsContext (jobs : List JobRow)
  | getRun (jobs : List JobRow) (needs : NeedsContext)
  | next (snap : Snapshot) (todo : List JobRow)
  | publish (snap : Snapshot) (job : JobRow) (route : Route) (msg : JobMessage)
      (todo : List JobRow)
  | unqueue (snap : Snapshot) (job : JobRow) (todo : List JobRow)
  | rollUp
  | setRunStatus (statuses : List JobStatus)

/-- A call of `advance_run` that has not returned. -/
structure Pass where
  runId : String
  pc : PassPc

/-- What a pass does in one step: its statement, where it goes on unless it returns, and the message
it leaves on the queue. -/
structure PassMove where
  stmt : Stmt
  next : Option PassPc
  send : Option (Route × JobMessage) := none

namespace Pass

/-- One turn of the loop over the jobs. -/
def job (env : Env) (pool : Pool) (db : Db) (runId : String) (snap : Snapshot) (job : JobRow)
    (todo : List JobRow) : PassMove :=
  match jobDecision env pool snap job with
  | .leave => ⟨.read, some (.next snap todo), none⟩
  | .finish status error => ⟨.setJobStatus job.id status error, some (.next snap todo), none⟩
  | .queue plan route => ⟨.queueJob job.id,
      if db.affectsJobs (.queueJob job.id)
      then some (.publish snap job route ⟨runId, job.id, plan.key⟩ todo)
      else some (.next snap todo), none⟩

/-- The next step of a pass. -/
def move (env : Env) (pool : Pool) (db : Db) (p : Pass) (r : Reply) : PassMove :=
  match p.pc with
  | .publish snap job route msg todo => match r with
    | .ok => ⟨.read, some (.next snap todo), some (route, msg)⟩
    | .duplicate => ⟨.read, some (.next snap todo), none⟩
    | .fail => ⟨.read, some (.unqueue snap job todo), none⟩
    | .unacked => ⟨.read, some (.unqueue snap job todo), some (route, msg)⟩
  -- the error of a rollback is only logged
  | .unqueue snap job todo => match r with
    | .fail => ⟨.read, some (.next snap todo), none⟩
    | _ => ⟨.unqueueJob job.id, some (.next snap todo), none⟩
  | pc => match r with
    -- `?` leaves the function
    | .fail => ⟨.read, none, none⟩
    | _ => match pc with
      | .jobsOf => ⟨.read, some (.needsContext (db.jobsOf p.runId)), none⟩
      | .needsContext jobs => ⟨.read, some (.getRun jobs (db.needsContext p.runId)), none⟩
      | .getRun jobs needs =>
        ⟨.read, some (.next ⟨jobs, needs, ciScope (db.getRun p.runId)⟩ jobs), none⟩
      | .next snap (j :: todo) => job env pool db p.runId snap j todo
      | .next _ [] => ⟨.read, some .rollUp, none⟩
      | .rollUp => ⟨.read, some (.setRunStatus (db.jobStatuses p.runId)), none⟩
      | .setRunStatus statuses => ⟨.setRunStatus p.runId (HeyoCi.rollUp statuses) none, none, none⟩
      | _ => ⟨.read, none, none⟩

/-- What a step of a pass can be. -/
inductive Moves (env : Env) (pool : Pool) (db : Db) (p : Pass) : PassMove → Prop
  | fails : Moves env pool db p ⟨.read, none, none⟩
  | jobsOf (h : p.pc = .jobsOf) :
      Moves env pool db p ⟨.read, some (.needsContext (db.jobsOf p.runId)), none⟩
  | needsContext (jobs : List JobRow) (h : p.pc = .needsContext jobs) :
      Moves env pool db p ⟨.read, some (.getRun jobs (db.needsContext p.runId)), none⟩
  | getRun (jobs : List JobRow) (needs : NeedsContext) (h : p.pc = .getRun jobs needs) :
      Moves env pool db p
        ⟨.read, some (.next ⟨jobs, needs, ciScope (db.getRun p.runId)⟩ jobs), none⟩
  | leave (snap : Snapshot) (j : JobRow) (todo : List JobRow) (h : p.pc = .next snap (j :: todo))
      (hd : jobDecision env pool snap j = .leave) :
      Moves env pool db p ⟨.read, some (.next snap todo), none⟩
  | finish (snap : Snapshot) (j : JobRow) (todo : List JobRow) (h : p.pc = .next snap (j :: todo))
      (s : JobStatus) (e : Option String) (hd : jobDecision env pool snap j = .finish s e) :
      Moves env pool db p ⟨.setJobStatus j.id s e, some (.next snap todo), none⟩
  | queue (snap : Snapshot) (j : JobRow) (todo : List JobRow) (h : p.pc = .next snap (j :: todo))
      (plan : JobPlan) (route : Route) (hd : jobDecision env pool snap j = .queue plan route)
      (ha : db.affectsJobs (.queueJob j.id) = true) :
      Moves env pool db p
        ⟨.queueJob j.id, some (.publish snap j route ⟨p.runId, j.id, plan.key⟩ todo), none⟩
  | lost (snap : Snapshot) (j : JobRow) (todo : List JobRow) (h : p.pc = .next snap (j :: todo))
      (plan : JobPlan) (route : Route) (hd : jobDecision env pool snap j = .queue plan route)
      (ha : db.affectsJobs (.queueJob j.id) = false) :
      Moves env pool db p ⟨.queueJob j.id, some (.next snap todo), none⟩
  | done (snap : Snapshot) (h : p.pc = .next snap []) :
      Moves env pool db p ⟨.read, some .rollUp, none⟩
  | publish (snap : Snapshot) (j : JobRow) (route : Route) (msg : JobMessage) (todo : List JobRow)
      (h : p.pc = .publish snap j route msg todo) :
      Moves env pool db p ⟨.read, some (.next snap todo), some (route, msg)⟩
  | duplicate (snap : Snapshot) (j : JobRow) (route : Route) (msg : JobMessage)
      (todo : List JobRow) (h : p.pc = .publish snap j route msg todo) :
      Moves env pool db p ⟨.read, some (.next snap todo), none⟩
  | refused (snap : Snapshot) (j : JobRow) (route : Route) (msg : JobMessage) (todo : List JobRow)
      (h : p.pc = .publish snap j route msg todo) (send : Option (Route × JobMessage))
      (hs : send = none ∨ send = some (route, msg)) :
      Moves env pool db p ⟨.read, some (.unqueue snap j todo), send⟩
  | unqueue (snap : Snapshot) (j : JobRow) (todo : List JobRow) (h : p.pc = .unqueue snap j todo) :
      Moves env pool db p ⟨.unqueueJob j.id, some (.next snap todo), none⟩
  | stranded (snap : Snapshot) (j : JobRow) (todo : List JobRow)
      (h : p.pc = .unqueue snap j todo) :
      Moves env pool db p ⟨.read, some (.next snap todo), none⟩
  | rollUp (h : p.pc = .rollUp) :
      Moves env pool db p ⟨.read, some (.setRunStatus (db.jobStatuses p.runId)), none⟩
  | setRunStatus (statuses : List JobStatus) (h : p.pc = .setRunStatus statuses) :
      Moves env pool db p ⟨.setRunStatus p.runId (HeyoCi.rollUp statuses) none, none, none⟩

/-- **Every way a pass can move.** -/
theorem moves (env : Env) (pool : Pool) (db : Db) (p : Pass) (r : Reply) :
    Moves env pool db p (p.move env pool db r) := by
  obtain ⟨runId, pc⟩ := p
  cases pc with
  | publish snap j route msg todo =>
    cases r with
    | ok => exact .publish snap j route msg todo rfl
    | duplicate => exact .duplicate snap j route msg todo rfl
    | fail => exact .refused snap j route msg todo rfl none (Or.inl rfl)
    | unacked => exact .refused snap j route msg todo rfl _ (Or.inr rfl)
  | unqueue snap j todo =>
    cases r with
    | fail => exact .stranded snap j todo rfl
    | _ => exact .unqueue snap j todo rfl
  | next snap todo =>
    cases todo with
    | nil => cases r with
      | fail => exact .fails
      | _ => exact .done snap rfl
    | cons j todo =>
      have hjob : Moves env pool db ⟨runId, .next snap (j :: todo)⟩
          (job env pool db runId snap j todo) := by
        unfold job
        cases hd : jobDecision env pool snap j with
        | leave => exact .leave snap j todo rfl hd
        | finish s e => exact .finish snap j todo rfl s e hd
        | queue plan route =>
          cases ha : db.affectsJobs (.queueJob j.id) with
          | true => exact .queue snap j todo rfl plan route hd ha
          | false => exact .lost snap j todo rfl plan route hd ha
      cases r with
      | fail => exact .fails
      | _ => exact hjob
  | jobsOf => cases r with
    | fail => exact .fails
    | _ => exact .jobsOf rfl
  | needsContext jobs => cases r with
    | fail => exact .fails
    | _ => exact .needsContext jobs rfl
  | getRun jobs needs => cases r with
    | fail => exact .fails
    | _ => exact .getRun jobs needs rfl
  | rollUp => cases r with
    | fail => exact .fails
    | _ => exact .rollUp rfl
  | setRunStatus statuses => cases r with
    | fail => exact .fails
    | _ => exact .setRunStatus statuses rfl

end Pass

end HeyoCi
