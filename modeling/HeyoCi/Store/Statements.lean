import HeyoCi.Store.Rows

/-!
# The statements of the store

Each write of the store is one `UPDATE` under the clock of the database, kept as a value of
`Table.Update`, so that what a statement does to a row and which rows it meets can be read off it.

* `queueJob`, `unqueueJob`, `claimJob`, `startJob`, `noteJobError`, `setJobStatus`, `setJobOutputs`,
  `cancelJobs`: the writes of `ci_job`; `setRunStatus`, `cancelRun`: those of `ci_run`;
* `Db.createRun`: the transaction that inserts a run and its jobs;
* `Stmt`, `Db.exec`: the statements as data, and running one;
* **`Stmt.moves`**: everything a statement can do to the status of a job;
* `Db.Evolves`: what every statement leaves alone.
-/

namespace HeyoCi

/-! ## Writes -/

namespace Store

def queueJob (now : Nat) (jobId : String) : Table.Update JobRow.id where
  hits j := j.id = jobId && j.status = .pending
  set j := { j with status := .queued, queuedAt := some now }
  key_set _ := rfl

def unqueueJob (jobId : String) : Table.Update JobRow.id where
  hits j := j.id = jobId && j.status = .queued
  set j := { j with status := .pending, queuedAt := none }
  key_set _ := rfl

def claimJob (now : Nat) (jobId runnerHdId : String) (attempt : Nat) :
    Table.Update JobRow.id where
  hits j := j.id = jobId && !j.status.isTerminal
  set j := { j with status := .running, runnerHdId := some runnerHdId, attempt := attempt,
                    startedAt := j.startedAt <|> some now }
  key_set _ := rfl

def startJob (now : Nat) (jobId runnerHdId sandboxId fingerprint : String) (attempt : Nat) :
    Table.Update JobRow.id where
  hits j := j.id = jobId && !j.status.isTerminal
  set j := { j with status := .running, runnerHdId := some runnerHdId,
                    sandboxId := some sandboxId, fingerprint := some fingerprint,
                    attempt := attempt, startedAt := j.startedAt <|> some now }
  key_set _ := rfl

def noteJobError (jobId error : String) : Table.Update JobRow.id where
  hits j := j.id = jobId && !j.status.isTerminal
  set j := { j with error := some error }
  key_set _ := rfl

/-- Alone among the writes of a status, this one does not look at the row's own status. -/
def setJobStatus (now : Nat) (jobId : String) (status : JobStatus) (error : Option String) :
    Table.Update JobRow.id where
  hits j := j.id = jobId
  set j := { j with status := status, error := error <|> j.error,
                    finishedAt := if status.isTerminal then some now else j.finishedAt }
  key_set _ := rfl

def setJobOutputs (jobId : String) (outputs : Json) : Table.Update JobRow.id where
  hits j := j.id = jobId
  set j := { j with outputs := outputs }
  key_set _ := rfl

/-- The first statement of `cancel_run`. -/
def cancelRun (now : Nat) (runId : String) : Table.Update Run.id where
  hits r := r.id = runId && !r.status.isTerminal
  set r := { r with status := .cancelled, finishedAt := some now,
                    error := r.error <|> some "cancelled" }
  key_set _ := rfl

/-- The second statement of `cancel_run`. -/
def cancelJobs (now : Nat) (runId : String) : Table.Update JobRow.id where
  hits j := j.runId = runId && !j.status.isTerminal
  set j := { j with status := .cancelled, finishedAt := some now,
                    error := j.error <|> some "cancelled" }
  key_set _ := rfl

def setRunStatus (now : Nat) (runId : String) (status : RunStatus) (error : Option String) :
    Table.Update Run.id where
  hits r := r.id = runId
  set r := { r with
    status := status
    error := error <|> r.error
    startedAt := if status = .running && r.startedAt.isNone then some now else r.startedAt
    finishedAt := if status.isTerminal then some now else r.finishedAt }
  key_set _ := rfl

/-- A job's row id. -/
def jobId (runId jobKey : String) : String := s!"{runId}.{jobKey}"

end Store

/-- What `create_run` is asked to record. -/
structure RunRequest where
  workflowId : String
  repoId : Option String
  repoUrl : String
  gitRef : String
  sha : String
  beforeSha : String
  changes : Changes
  deriving Repr, DecidableEq

/-- The row `create_run` inserts for the run. -/
def RunRequest.row (req : RunRequest) (now : Nat) (runId : String) (plan : Plan) : Run where
  id := runId
  workflowId := req.workflowId
  workflowPath := plan.workflowPath
  workflowName := plan.workflowName
  repoUrl := req.repoUrl
  repoId := req.repoId
  gitRef := req.gitRef
  sha := req.sha
  beforeSha := req.beforeSha
  changes := req.changes
  status := .queued
  error := none
  createdAt := now
  startedAt := none
  finishedAt := none

/-- The row `create_run` inserts for a job. -/
def JobPlan.row (job : JobPlan) (now : Nat) (runId : String) : JobRow where
  id := Store.jobId runId job.key
  runId := runId
  jobKey := job.key
  baseId := job.baseId
  display := job.display
  network := job.target.network
  runnerHdId := none
  fingerprint := none
  sandboxId := none
  status := .pending
  attempt := 1
  mtx := job.mtx
  outputs := .obj []
  plan := .ok job
  error := none
  createdAt := now
  queuedAt := none
  startedAt := none
  finishedAt := none

/-- The transaction of `create_run`: all its rows, or `none` when an id is taken. -/
def Db.createRun (db : Db) (runId : String) (req : RunRequest) (plan : Plan) : Option Db := do
  let runs ← db.runs.insert (req.row db.now runId plan)
  let jobs ← Table.insertAll (plan.jobs.map fun job => job.row db.now runId) db.jobs
  some { db with runs := runs, jobs := jobs }

/-! ## Statements as data -/

/-- A write of the store, or a read, which writes nothing. -/
inductive Stmt where
  | read
  | tick (d : Nat)
  | createRun (runId : String) (req : RunRequest) (plan : Plan)
  | setRunStatus (runId : String) (status : RunStatus) (error : Option String)
  | cancelRun (runId : String)
  | cancelJobs (runId : String)
  | claimJob (jobId runnerHdId : String) (attempt : Nat)
  | startJob (jobId runnerHdId sandboxId fingerprint : String) (attempt : Nat)
  | noteJobError (jobId error : String)
  | queueJob (jobId : String)
  | unqueueJob (jobId : String)
  | setJobStatus (jobId : String) (status : JobStatus) (error : Option String)
  | setJobOutputs (jobId : String) (outputs : Json)

namespace Stmt

/-- The `UPDATE` of `ci_job` a statement makes at time `now`. -/
def onJobs (now : Nat) : Stmt → Table.Update JobRow.id
  | cancelJobs runId => Store.cancelJobs now runId
  | claimJob jobId runner attempt => Store.claimJob now jobId runner attempt
  | startJob jobId runner sandbox fp attempt => Store.startJob now jobId runner sandbox fp attempt
  | noteJobError jobId error => Store.noteJobError jobId error
  | queueJob jobId => Store.queueJob now jobId
  | unqueueJob jobId => Store.unqueueJob jobId
  | setJobStatus jobId status error => Store.setJobStatus now jobId status error
  | setJobOutputs jobId outputs => Store.setJobOutputs jobId outputs
  | _ => .none

/-- The `UPDATE` of `ci_run` a statement makes at time `now`. -/
def onRuns (now : Nat) : Stmt → Table.Update Run.id
  | setRunStatus runId status error => Store.setRunStatus now runId status error
  | cancelRun runId => Store.cancelRun now runId
  | _ => .none

end Stmt

namespace Db

/-- Run a statement. -/
def exec (db : Db) : Stmt → Db
  | .tick d => { db with now := db.now + d }
  | .createRun runId req plan => (db.createRun runId req plan).getD db
  | st => { db with
      runs := db.runs.update (st.onRuns db.now)
      jobs := db.jobs.update (st.onJobs db.now) }

/-- Whether a statement affects a job. -/
def affectsJobs (db : Db) (st : Stmt) : Bool := db.jobs.affected (st.onJobs db.now)

/-- Whether a statement affects a run. -/
def affectsRuns (db : Db) (st : Stmt) : Bool := db.runs.affected (st.onRuns db.now)

/-- The job rows a statement inserts. -/
def inserted (db : Db) : Stmt → List JobRow
  | .createRun runId req plan => if (db.createRun runId req plan).isSome
      then plan.jobs.map fun job => job.row db.now runId else []
  | _ => []

@[simp] theorem exec_read (db : Db) : db.exec .read = db := by
  simp [exec, Stmt.onRuns, Stmt.onJobs]

variable {db : Db} {st : Stmt}

theorem createRun_eq_some {runId : String} {req : RunRequest} {plan : Plan} {db' : Db} :
    db.createRun runId req plan = some db' ↔
      ∃ runs jobs, db.runs.insert (req.row db.now runId plan) = some runs ∧
        Table.insertAll (plan.jobs.map fun job => job.row db.now runId) db.jobs = some jobs ∧
        db' = { db with runs := runs, jobs := jobs } := by
  simp only [createRun, Option.bind_eq_bind, Option.bind_eq_some_iff, Option.some.injEq]
  constructor
  · rintro ⟨runs, hr, jobs, hj, rfl⟩
    exact ⟨runs, jobs, hr, hj, rfl⟩
  · rintro ⟨runs, jobs, hr, hj, rfl⟩
    exact ⟨runs, hr, jobs, hj, rfl⟩

/-- **The job rows after a statement**: the inserted ones and the updated old ones. -/
theorem rows_exec_jobs : (db.exec st).jobs.rows =
    (db.inserted st).reverse ++ db.jobs.rows.map (st.onJobs db.now).row := by
  have hnone : db.jobs.rows.map (Table.Update.none : Table.Update JobRow.id).row = db.jobs.rows :=
    congrArg Table.rows db.jobs.update_none
  cases st with
  | tick d => exact hnone.symm
  | createRun runId req plan =>
    cases h : db.createRun runId req plan with
    | none =>
      simp only [exec, inserted, h, Option.getD_none, Option.isSome_none, Bool.false_eq_true, if_false]
      exact hnone.symm
    | some db' =>
      obtain ⟨runs, jobs, -, hj, rfl⟩ := createRun_eq_some.mp h
      simp only [exec, inserted, h, Option.getD_some, Option.isSome_some, if_true]
      rw [Table.rows_insertAll hj]
      exact congrArg _ hnone.symm
  | _ => rfl

theorem mem_exec_jobs {j' : JobRow} : j' ∈ (db.exec st).jobs.rows ↔
    (∃ j ∈ db.jobs.rows, (st.onJobs db.now).row j = j') ∨ j' ∈ db.inserted st := by
  rw [rows_exec_jobs, List.mem_append, List.mem_reverse, List.mem_map, or_comm]

/-- The run rows after a statement. -/
theorem mem_exec_runs {r' : Run} (h : r' ∈ (db.exec st).runs.rows) :
    (∃ r ∈ db.runs.rows, (st.onRuns db.now).row r = r') ∨
      (db.runs.find r'.id = none ∧ r'.status = .queued ∧
        ∃ req plan, st = .createRun r'.id req plan ∧ (db.createRun r'.id req plan).isSome) := by
  cases st with
  | tick d => exact Or.inl ⟨r', h, rfl⟩
  | createRun runId req plan =>
    cases hc : db.createRun runId req plan with
    | none =>
      rw [exec, hc] at h
      exact Or.inl ⟨r', h, rfl⟩
    | some db' =>
      obtain ⟨runs, jobs, hr, -, rfl⟩ := createRun_eq_some.mp hc
      rw [exec, hc, Option.getD_some, (Table.insert_eq_some.mp hr).2] at h
      rcases List.mem_cons.mp h with rfl | h
      · have hsome : (db.createRun runId req plan).isSome := by rw [hc, Option.isSome_some]
        exact Or.inr ⟨(Table.insert_eq_some.mp hr).1, rfl, req, plan, rfl, hsome⟩
      · exact Or.inl ⟨r', h, rfl⟩
  | _ => exact Or.inl ((Table.mem_update _ _).mp h)

/-- A run row that was there is still there, updated. -/
theorem exec_runs_of_mem {r : Run} (h : r ∈ db.runs.rows) :
    (st.onRuns db.now).row r ∈ (db.exec st).runs.rows := by
  cases st with
  | tick d => exact h
  | createRun runId req plan =>
    cases hc : db.createRun runId req plan with
    | none =>
      rw [exec, hc]
      exact h
    | some db' =>
      obtain ⟨runs, jobs, hr, -, rfl⟩ := createRun_eq_some.mp hc
      rw [exec, hc, Option.getD_some, (Table.insert_eq_some.mp hr).2]
      exact List.mem_cons_of_mem _ h
  | _ => exact (Table.mem_update _ _).mpr ⟨r, h, rfl⟩

/-- What `createRun` inserts is pending, and its run and ids were free. -/
theorem inserted_spec {j : JobRow} (h : j ∈ db.inserted st) :
    j.status = .pending ∧ db.runs.find j.runId = none ∧ db.jobs.find j.id = none ∧
      ∃ req plan, st = .createRun j.runId req plan ∧ ∃ job ∈ plan.jobs, j = job.row db.now j.runId := by
  cases st with
  | createRun runId req plan =>
    simp only [inserted] at h
    split_ifs at h with hs
    · obtain ⟨db', hc⟩ := Option.isSome_iff_exists.mp hs
      obtain ⟨runs, jobs, hr, hj, -⟩ := createRun_eq_some.mp hc
      have hfresh := Table.fresh_of_insertAll hj j h
      obtain ⟨job, hjob, rfl⟩ := List.mem_map.mp h
      exact ⟨rfl, (Table.insert_eq_some.mp hr).1, hfresh, req, plan, rfl, job, hjob, rfl⟩
    · exact absurd h List.not_mem_nil
  | _ => exact absurd h List.not_mem_nil

def HasRun (db : Db) (runId : String) : Prop := ∃ r ∈ db.runs.rows, r.id = runId

theorem hasRun_of_getRun {runId : String} {r : Run} (h : db.runs.find runId = some r) :
    db.HasRun runId := ⟨r, Table.mem_of_find h, Table.key_of_find h⟩

/-- The id of a run that is there is taken. -/
theorem HasRun.taken {runId : String} (h : db.HasRun runId) : db.runs.find runId ≠ none := by
  obtain ⟨r, hr, rfl⟩ := h
  rw [Table.find_of_mem _ hr]
  exact Option.some_ne_none r

/-- What is inserted belongs to no run that was there. -/
theorem HasRun.ne_of_inserted {runId : String} (h : db.HasRun runId) {j : JobRow}
    (hj : j ∈ db.inserted st) : j.runId ≠ runId := by
  intro hrun
  have hfresh := (inserted_spec hj).2.1
  rw [hrun] at hfresh
  exact h.taken hfresh

theorem hasRun_createRun {runId : String} {req : RunRequest} {plan : Plan}
    (h : (db.createRun runId req plan).isSome = true) :
    (db.exec (.createRun runId req plan)).HasRun runId := by
  obtain ⟨db', hc⟩ := Option.isSome_iff_exists.mp h
  obtain ⟨runs, jobs, hr, -, rfl⟩ := createRun_eq_some.mp hc
  refine ⟨req.row db.now runId plan, ?_, rfl⟩
  rw [exec, hc, Option.getD_some, (Table.insert_eq_some.mp hr).2]
  exact List.mem_cons_self

/-- What is inserted belongs to the run inserted with it. -/
theorem hasRun_of_inserted {j : JobRow} (h : j ∈ db.inserted st) : (db.exec st).HasRun j.runId := by
  obtain ⟨-, -, -, req, plan, hst, -⟩ := inserted_spec h
  rw [hst, inserted] at h
  split_ifs at h with hs
  · rw [hst]
    exact hasRun_createRun hs
  · exact absurd h List.not_mem_nil

/-- A job row that was there is found after a statement, updated. -/
theorem find_exec_job {id : String} {j : JobRow} (h : db.jobs.find id = some j) :
    (db.exec st).jobs.find id = some ((st.onJobs db.now).row j) := by
  rw [Table.find_eq_some, mem_exec_jobs, (st.onJobs db.now).key_row]
  exact ⟨Or.inl ⟨j, Table.mem_of_find h, rfl⟩, Table.key_of_find h⟩

end Db

/-! ## What a statement does to a status -/

/-- `st.Moves j s`: the statement may leave the job row `j` with status `s`. -/
inductive Stmt.Moves (j : JobRow) : Stmt → JobStatus → Prop
  | keep (st : Stmt) : Moves j st j.status
  | queue (h : j.status = .pending) : Moves j (.queueJob j.id) .queued
  | unqueue (h : j.status = .queued) : Moves j (.unqueueJob j.id) .pending
  | claim (h : j.status.isTerminal = false) (r : String) (a : Nat) :
      Moves j (.claimJob j.id r a) .running
  | start (h : j.status.isTerminal = false) (r s f : String) (a : Nat) :
      Moves j (.startJob j.id r s f a) .running
  | cancel (h : j.status.isTerminal = false) : Moves j (.cancelJobs j.runId) .cancelled
  | set (s : JobStatus) (e : Option String) : Moves j (.setJobStatus j.id s e) s

/-- **Everything a statement can do to the status of a row.** -/
theorem Stmt.moves (now : Nat) (st : Stmt) (j : JobRow) :
    Stmt.Moves j st ((st.onJobs now).row j).status := by
  by_cases hits : (st.onJobs now).hits j = true
  · rw [Table.Update.row_of_hits hits]
    cases st with
    | cancelJobs runId =>
      obtain ⟨rfl, h⟩ : j.runId = runId ∧ j.status.isTerminal = false := by
        simpa [onJobs, Store.cancelJobs] using hits
      exact Moves.cancel h
    | claimJob jobId r a =>
      obtain ⟨rfl, h⟩ : j.id = jobId ∧ j.status.isTerminal = false := by
        simpa [onJobs, Store.claimJob] using hits
      exact Moves.claim h r a
    | startJob jobId r s f a =>
      obtain ⟨rfl, h⟩ : j.id = jobId ∧ j.status.isTerminal = false := by
        simpa [onJobs, Store.startJob] using hits
      exact Moves.start h r s f a
    | queueJob jobId =>
      obtain ⟨rfl, h⟩ : j.id = jobId ∧ j.status = .pending := by
        simpa [onJobs, Store.queueJob] using hits
      exact Moves.queue h
    | unqueueJob jobId =>
      obtain ⟨rfl, h⟩ : j.id = jobId ∧ j.status = .queued := by
        simpa [onJobs, Store.unqueueJob] using hits
      exact Moves.unqueue h
    | setJobStatus jobId s e =>
      obtain rfl : j.id = jobId := by simpa [onJobs, Store.setJobStatus] using hits
      exact Moves.set s e
    | _ => exact Moves.keep _
  · rw [Table.Update.row_of_not_hits (by simpa using hits)]
    exact Moves.keep st

/-- `st.RunMoves r s`: the statement may leave the run row `r` with status `s`. -/
inductive Stmt.RunMoves (r : Run) : Stmt → RunStatus → Prop
  | keep (st : Stmt) : RunMoves r st r.status
  | set (s : RunStatus) (e : Option String) : RunMoves r (.setRunStatus r.id s e) s
  | cancel (h : r.status.isTerminal = false) : RunMoves r (.cancelRun r.id) .cancelled

/-- **Everything a statement can do to the status of a run.** -/
theorem Stmt.runMoves (now : Nat) (st : Stmt) (r : Run) :
    Stmt.RunMoves r st ((st.onRuns now).row r).status := by
  by_cases hits : (st.onRuns now).hits r = true
  · rw [Table.Update.row_of_hits hits]
    cases st with
    | setRunStatus runId s e =>
      obtain rfl : r.id = runId := by simpa [onRuns, Store.setRunStatus] using hits
      exact RunMoves.set s e
    | cancelRun runId =>
      obtain ⟨rfl, h⟩ : r.id = runId ∧ r.status.isTerminal = false := by
        simpa [onRuns, Store.cancelRun] using hits
      exact RunMoves.cancel h
    | _ => exact RunMoves.keep _
  · rw [Table.Update.row_of_not_hits (by simpa using hits)]
    exact RunMoves.keep st

/-- No statement assigns the columns of `JobRow.Same`. -/
theorem Stmt.same (now : Nat) (st : Stmt) (j : JobRow) : j.Same ((st.onJobs now).row j) := by
  unfold Table.Update.row
  split_ifs
  · cases st <;> exact ⟨rfl, rfl, rfl, rfl, rfl, rfl, rfl⟩
  · exact JobRow.Same.refl j

/-- The statement writes no status that is not terminal with `set_job_status`. -/
def Stmt.SetsFinal (st : Stmt) : Prop :=
  ∀ jobId s e, st = .setJobStatus jobId s e → s.isTerminal = true

theorem Stmt.terminal_row {now : Nat} {st : Stmt} (hst : st.SetsFinal) {j : JobRow}
    (h : j.status.isTerminal = true) : ((st.onJobs now).row j).status.isTerminal = true := by
  have hm := Stmt.moves now st j
  generalize ((st.onJobs now).row j).status = s at hm ⊢
  cases hm with
  | keep => exact h
  | queue hq => rw [hq] at h; cases h
  | unqueue hq => rw [hq] at h; cases h
  | claim hq | start hq | cancel hq => rw [hq] at h; cases h
  | set => exact hst _ _ _ rfl

/-- How a status may change over time. -/
abbrev StatusRel := JobStatus → JobStatus → Prop

/-- A finished job stays finished. -/
def StaysTerminal : StatusRel := fun s s' => s.isTerminal = true → s'.isTerminal = true

/-- A finished job keeps its status. -/
def StaysFinal : StatusRel := fun s s' => s.isTerminal = true → s' = s

/-- **What statements leave alone.** The jobs keep their identity, their statuses change along `K`,
and a new job is a pending job of a new run. -/
structure Db.Evolves (K : StatusRel) (db db' : Db) : Prop where
  job : ∀ j ∈ db.jobs.rows, ∃ j' ∈ db'.jobs.rows, j.Same j' ∧ K j.status j'.status
  back : ∀ j' ∈ db'.jobs.rows, (∃ j ∈ db.jobs.rows, j.Same j' ∧ K j.status j'.status) ∨
    (j'.status = .pending ∧ db.runs.find j'.runId = none)
  run : ∀ r ∈ db.runs.rows, ∃ r' ∈ db'.runs.rows, r'.id = r.id

theorem Db.evolves_exec {K : StatusRel} (db : Db) (st : Stmt)
    (hK : ∀ j ∈ db.jobs.rows, K j.status ((st.onJobs db.now).row j).status) :
    db.Evolves K (db.exec st) where
  job j hj := ⟨_, mem_exec_jobs.mpr (Or.inl ⟨j, hj, rfl⟩), st.same db.now j, hK j hj⟩
  back j' hj' := by
    rcases mem_exec_jobs.mp hj' with ⟨j, hj, rfl⟩ | hnew
    · exact Or.inl ⟨j, hj, st.same db.now j, hK j hj⟩
    · exact Or.inr ⟨(inserted_spec hnew).1, (inserted_spec hnew).2.1⟩
  run r hr := ⟨_, exec_runs_of_mem hr, (st.onRuns db.now).key_row r⟩

end HeyoCi
