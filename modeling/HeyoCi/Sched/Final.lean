import HeyoCi.Sched.Model

/-!
# Finished jobs stay as they are

Every write of a job's status but one looks at the row's own status first. `set_job_status` does
not, so a finished job keeps its status exactly as long as that write meets no other finished job.

* `JobRow.Kept`, `Db.KeepsFinal`, `Stmt.Open`: no finished job changes; the one write finds its row open;
* `keepsFinal_exec_iff`: the two agree on one statement;
* **`keepsFinal_iff`**: they agree on every run;
* `final_of_reach`: what a run of such steps leaves of a finished job;
* `JobPlan.plain`, `lateSuccess`: a run that overwrites a cancelled job.
-/

namespace HeyoCi

/-- The row of a job is there with the same status. -/
def JobRow.Kept (j : JobRow) (db : Db) : Prop := ∃ j' ∈ db.jobs.rows, j.Same j' ∧ j'.status = j.status

/-- No finished job has another status afterwards. -/
def Db.KeepsFinal (db db' : Db) : Prop :=
  ∀ j ∈ db.jobs.rows, j.status.isTerminal = true → j.Kept db'

/-- `set_job_status` finds its row unfinished, or finished with the status it sets. -/
def Stmt.Open (db : Db) (st : Stmt) : Prop := ∀ jobId s e, st = .setJobStatus jobId s e →
  ∀ j ∈ db.jobs.rows, j.id = jobId → j.status.isTerminal = true → j.status = s

theorem Stmt.status_of_open {db : Db} {st : Stmt} (h : st.Open db) {j : JobRow}
    (hj : j ∈ db.jobs.rows) (ht : j.status.isTerminal = true) :
    ((st.onJobs db.now).row j).status = j.status := by
  have hm := st.moves db.now j
  generalize ((st.onJobs db.now).row j).status = s at hm ⊢
  cases hm with
  | keep => rfl
  | queue hq | unqueue hq => rw [hq] at ht; cases ht
  | claim hq | start hq | cancel hq => rw [hq] at ht; cases ht
  | set s e => exact (h _ s e rfl j hj rfl ht).symm

/-- **One statement keeps the finished jobs exactly when it finds its row open.** -/
theorem keepsFinal_exec_iff (db : Db) (st : Stmt) : db.KeepsFinal (db.exec st) ↔ st.Open db := by
  constructor
  · rintro h jobId s e rfl j hj rfl ht
    obtain ⟨j', hj', hsame, hs⟩ := h j hj ht
    have hrow := Db.mem_exec_jobs.mpr (Or.inl ⟨j, hj, rfl⟩ : _ ∨ _ ∈ db.inserted
      (.setJobStatus j.id s e))
    have hkey := ((Stmt.setJobStatus j.id s e).onJobs db.now).key_row j
    have heq := (db.exec _).jobs.eq_of_key hj' hrow (hsame.id.trans hkey.symm)
    rw [← hs, heq, Table.Update.row_of_hits (by simp [Stmt.onJobs, Store.setJobStatus])]
    rfl
  · intro h j hj ht
    exact ⟨_, Db.mem_exec_jobs.mpr (Or.inl ⟨j, hj, rfl⟩), st.same db.now j,
      Stmt.status_of_open h hj ht⟩

/-- The statement of an action finds its row open. -/
def World.Open (env : Env) (w : World) (a : Act) : Prop :=
  ∀ st, stmtOf env w a = some st → st.Open w.db

instance (db : Db) (st : Stmt) : Decidable (st.Open db) := match st with
  | .setJobStatus jobId s _ => decidable_of_iff
      (∀ j ∈ db.jobs.rows, j.id = jobId → j.status.isTerminal = true → j.status = s)
      ⟨fun h _ _ _ hst => by cases hst; exact h, fun h => h _ _ _ rfl⟩
  | .read | .tick _ | .createRun .. | .setRunStatus .. | .cancelRun _ | .cancelJobs _ | .claimJob ..
  | .startJob .. | .noteJobError .. | .queueJob _ | .unqueueJob _ | .setJobOutputs .. =>
    .isTrue fun _ _ _ hst => by cases hst

instance (env : Env) (w : World) (a : Act) : Decidable (w.Open env a) :=
  match h : stmtOf env w a with
  | none => .isTrue fun _ hst => by rw [h] at hst; cases hst
  | some st => decidable_of_iff (st.Open w.db)
      ⟨fun ho _ hst => by cases h.symm.trans hst; exact ho, fun ho => ho st h⟩

theorem step_open {env : Env} {w w' : World} {a : Act} (h : step env w a = some w')
    (ho : w.Open env a) : ∃ st c, World.Moves env w a st c ∧ st.Open w.db ∧ w' = ⟨w.db.exec st, c⟩ := by
  obtain ⟨st, c, hst, hm, rfl⟩ := step_cases h
  exact ⟨st, c, hm, ho st hst, rfl⟩

/-- **A run keeps every finished job as it is exactly when each `set_job_status` of it finds its row
open.** -/
theorem keepsFinal_iff (env : Env) (now : Nat) (pool : Pool) (as : List Act) :
    (machine env).Throughout (fun w _ w' => w.db.KeepsFinal w'.db) (World.start now pool) as ↔
      (machine env).Throughout (fun w a _ => w.Open env a) (World.start now pool) as := by
  refine Machine.Throughout.congr (Machine.Reachable.init ⟨now, pool, rfl⟩) fun w a w' _ h => ?_
  obtain ⟨st, c, hst, -, rfl⟩ := step_cases h
  change w.db.KeepsFinal (w.db.exec st) ↔ _
  rw [keepsFinal_exec_iff, World.Open, hst]
  simp

/-- Along steps that find their rows open, a finished job keeps its columns and its status. -/
theorem final_of_reach {env : Env} {w w' : World} (h : (machine env).Reach (World.Open env) w w')
    {j : JobRow} (hj : j ∈ w.db.jobs.rows) (ht : j.status.isTerminal = true) : j.Kept w'.db := by
  have key : ∀ t a t', j.Kept t.db → t.Open env a → (machine env).step t a = some t' →
      j.Kept t'.db := by
    rintro t a t' ⟨j₁, hj₁, hsame, hs⟩ ho hstep
    obtain ⟨st, c, -, hopen, rfl⟩ := step_open hstep ho
    refine ⟨_, Db.mem_exec_jobs.mpr (Or.inl ⟨j₁, hj₁, rfl⟩), hsame.trans (st.same _ j₁), ?_⟩
    rw [Stmt.status_of_open hopen hj₁ (by rw [hs]; exact ht), hs]
  exact Machine.Reach.inv (fun t => j.Kept t.db) key h ⟨j, hj, JobRow.Same.refl j, rfl⟩

/-! ## A late success -/

def Env.plain : Env := ⟨fun _ _ => .ok true, 900, 14400⟩

def RunRequest.plain : RunRequest :=
  ⟨"wf", none, "https://example.com/r", "refs/heads/main", "b", "a", .known []⟩

/-- A whole pass over a number of jobs that queues some of them, when no pass is before it. -/
def schedule (jobs queued : Nat) : List Act := List.replicate (jobs + queued + 6) (.pass 0 .ok)

/-- The first execution takes the message `seq` up to its first step. -/
def takeJob (seq : Nat) : List Act :=
  [.deliver seq, .exec 0 .ok, .exec 0 .ok, .exec 0 (.machine "sb" "fp"), .exec 0 .ok, .exec 0 .ok,
    .exec 0 .ok]

/-- The execution ends its only step and succeeds. -/
def succeedJob : List Act :=
  [.exec 0 .ok, .exec 0 (.outputs (.obj [])), .exec 0 .ok, .exec 0 .ok, .exec 0 .ok]

/-- The execution fails in its only step. -/
def failJob : List Act := [.exec 0 (.fail (.stepFailed "exit 1")), .exec 0 .ok, .exec 0 .ok]

/-- The status of a job. -/
def World.status (w : World) (jobId : String) : Option JobStatus :=
  (w.db.jobs.find jobId).map (·.status)

/-- A job's status and its place in the graph. -/
structure Node where
  status : JobStatus
  runId : String
  baseId : String
  needs : List String
  deriving DecidableEq

def World.node (w : World) (jobId : String) : Option Node :=
  (w.db.jobs.find jobId).bind fun j =>
    j.plan.toOption.map fun plan => ⟨j.status, j.runId, j.baseId, plan.needs⟩

theorem World.node_spec {w : World} {jobId : String} {n : Node} (h : w.node jobId = some n) :
    ∃ j ∈ w.db.jobs.rows, ∃ plan, j.id = jobId ∧ j.plan = .ok plan ∧
      n = ⟨j.status, j.runId, j.baseId, plan.needs⟩ := by
  obtain ⟨j, hj, h⟩ := Option.bind_eq_some_iff.mp h
  obtain ⟨plan, hplan, h⟩ := Option.map_eq_some_iff.mp h
  refine ⟨j, Table.mem_of_find hj, plan, Table.key_of_find hj, ?_, h.symm⟩
  cases hp : j.plan with
  | error e =>
    rw [hp] at hplan
    cases hplan
  | ok p =>
    rw [hp] at hplan
    exact congrArg _ (Option.some.inj hplan)

/-- A run of one job, cancelled while the job's last step is executing. -/
def lateSuccess : List Act :=
  .submit "r" .plain .single ::
    (schedule 1 1 ++ takeJob 0 ++
      [.cancelRun "r", .cancelJobs 0, .exec 0 .ok, .exec 0 (.outputs (.obj [])), .exec 0 .ok])

/-- The executor's success lands on the cancelled job. -/
theorem cancelled_overwritten : ¬ ∀ (env : Env) (now : Nat) (pool : Pool) (as : List Act),
    (machine env).Throughout (fun w _ w' => w.db.KeepsFinal w'.db) (World.start now pool) as := by
  intro h
  have hbefore : ((machine .plain).run (World.start 0 .single) lateSuccess).map
      (·.status "r.build") = some (some .cancelled) := by decide
  have hafter : ((machine .plain).run (World.start 0 .single) (lateSuccess ++ [.exec 0 .ok])).map
      (·.status "r.build") = some (some .success) := by decide
  obtain ⟨w, hw, hc⟩ := Option.map_eq_some_iff.mp hbefore
  obtain ⟨w', hw', hs⟩ := Option.map_eq_some_iff.mp hafter
  rw [Machine.run_concat, hw, Option.bind_some] at hw'
  refine Machine.not_throughout hw hw' (fun hk => ?_) (h .plain 0 .single _)
  obtain ⟨j, hj, hjs⟩ := Option.map_eq_some_iff.mp hc
  obtain ⟨j', hj', hsame, hjs'⟩ := hk j (Table.mem_of_find hj) (by rw [hjs]; rfl)
  have hfind : w'.db.jobs.find "r.build" = some j' :=
    w'.db.jobs.find_eq_some.mpr ⟨hj', hsame.id.trans (Table.key_of_find hj)⟩
  rw [World.status, hfind, Option.map_some, hjs', hjs] at hs
  cases hs

end HeyoCi
