import HeyoCi.Sched.Nudge
import HeyoCi.Sched.Strand

/-!
# Whom the runner-wait watchdog fails

The watchdog spares a job whose host is online, and reads the host from the row. A queued row names
none: `runner_hd_id` is written when a consumer takes the job, which then runs.

* `failJobsWaitingForARunner`: the watchdog as a function on the database;
* `Db.Unassigned`: what is pending or queued has no host;
* `Route.online`, `World.Served`: a message of the job is where some online host looks;
* **`find_failJobs`**: the watchdog fails every job it finds, whatever the hosts do;
* **`watchdog_iff`**: it fails no job of an online host exactly when it finds none;
* **`reach_watchdog`**: the machine can do what `failJobsWaitingForARunner` computes.
-/

namespace HeyoCi

/-! ## The watchdog -/

section Watchdog

variable (env : Env) (pool : Pool)

/-- One turn of the loop over the jobs that waited too long. -/
def failStuckJob (db : Db) (job : JobRow) : Db :=
  if Watch.online pool job then db
  else advanceRun env pool
    (db.exec (.setJobStatus job.id .failure (some (Watch.detail env job)))) job.runId

/-- `fail_jobs_waiting_for_a_runner`. -/
def failJobsWaitingForARunner (db : Db) : Db :=
  (db.jobsWaitingLongerThan env.runnerWait watchBatch).foldl (failStuckJob env pool) db

end Watchdog

/-- The job has failed. -/
def Db.HasFailed (db : Db) (id : String) : Prop :=
  ∃ j ∈ db.jobs.rows, j.id = id ∧ j.status = .failure

/-- Some host that takes work from this queue is online. -/
def Route.online (pool : Pool) : Route → Bool
  | .runner id => (pool.locate id).any fun sr => sr.2.status.isDispatchable
  | .network id => pool.networks.any fun n => n.networkId = id && !n.dispatchable.isEmpty

/-- A message of the job is on the queue of an online host. -/
def World.Served (w : World) (pool : Pool) (j : JobRow) : Prop :=
  ∃ m ∈ w.ctl.msgs, m.body.jobId = j.id ∧ m.route.online pool = true

/-! ## A queued row names no host -/

/-- What nobody has taken has no host. -/
def Db.Unassigned (db : Db) : Prop :=
  ∀ j ∈ db.jobs.rows, j.status = .pending ∨ j.status = .queued → j.runnerHdId = none

theorem Db.Unassigned.exec {db : Db} {st : Stmt} (h : db.Unassigned) (hset : st.SetsFinal) :
    (db.exec st).Unassigned := by
  intro j' hj' hs
  rcases Db.mem_exec_jobs.mp hj' with ⟨j, hj, rfl⟩ | hnew
  · by_cases hits : (st.onJobs db.now).hits j = true
    · rw [Table.Update.row_of_hits hits] at hs ⊢
      cases st with
      | claimJob | startJob | cancelJobs => rcases hs with hs | hs <;> cases hs
      | setJobStatus id s e =>
        have hfinal := hset id s e rfl
        rcases hs with hs | hs <;> cases hs <;> cases hfinal
      | queueJob id =>
        have hp : j.id = id ∧ j.status = .pending := by
          simpa [Stmt.onJobs, Store.queueJob] using hits
        exact h j hj (Or.inl hp.2)
      | unqueueJob id =>
        have hq : j.id = id ∧ j.status = .queued := by
          simpa [Stmt.onJobs, Store.unqueueJob] using hits
        exact h j hj (Or.inr hq.2)
      | _ => exact h j hj hs
    · rw [Table.Update.row_of_not_hits (Bool.eq_false_iff.mpr hits)] at hs ⊢
      exact h j hj hs
  · obtain ⟨-, -, -, req, plan, -, job, -, heq⟩ := Db.inserted_spec hnew
    rw [heq]
    rfl

theorem unassigned_reachable {env : Env} {ok : World → Act → Prop} {w : World}
    (h : (machine env).Reachable ok w) : w.db.Unassigned := by
  refine Machine.Reachable.inv (fun w => w.db.Unassigned) ?_ ?_ h
  · rintro w ⟨now, pool, rfl⟩ j hj
    cases hj
  · intro w a w' _ hw _ hstep
    obtain ⟨st, c, -, hm, rfl⟩ := step_cases hstep
    exact hw.exec hm.setsFinal

/-- **No job the watchdog finds is spared.** -/
theorem Db.Unassigned.not_online {db : Db} (h : db.Unassigned) {wait limit : Nat} {j : JobRow}
    (hj : j ∈ db.jobsWaitingLongerThan wait limit) (pool : Pool) : Watch.online pool j = false := by
  obtain ⟨hrow, hwait⟩ := Db.mem_jobsWaiting hj
  simp only [Db.waiting, Bool.and_eq_true, decide_eq_true_eq] at hwait
  rw [Watch.online, h j hrow (Or.inr hwait.1.1)]
  rfl

/-! ## What the watchdog makes of a job -/

section Find

variable {env : Env} {pool : Pool} {db : Db} {id : String} {j : JobRow}

/-- A pass leaves alone what is not pending. -/
theorem advanced_of_ne_pending {snap : Snapshot} {now : Nat} (h : j.status ≠ .pending) :
    j.advanced env pool snap now = j := by
  rw [JobRow.advanced, jobDecision, if_pos h]
  rfl

theorem find_advanceRun (runId : String) (hj : db.jobs.find id = some j)
    (hp : j.status ≠ .pending) : (advanceRun env pool db runId).jobs.find id = some j := by
  rw [Table.find_eq_some] at hj ⊢
  refine ⟨?_, hj.2⟩
  rw [(jobs_advanceRun env pool db runId).2]
  refine List.mem_map.mpr ⟨j, hj.1, ?_⟩
  split_ifs
  · exact advanced_of_ne_pending hp
  · rfl

/-- A turn of the watchdog fails its job, and leaves alone what else is not pending. -/
theorem find_failStuckJob (env : Env) {job : JobRow} (hoff : Watch.online pool job = false)
    (hj : db.jobs.find id = some j) (hp : j.status ≠ .pending) :
    ∃ j', (failStuckJob env pool db job).jobs.find id = some j' ∧
      j'.status = if id = job.id then .failure else j.status := by
  have hid := Table.key_of_find hj
  have hset : (db.exec (.setJobStatus job.id .failure (some (Watch.detail env job)))).jobs.find id =
      some _ := Db.find_exec_job hj
  have hs : (((Stmt.setJobStatus job.id .failure (some (Watch.detail env job))).onJobs db.now).row
      j).status = if id = job.id then .failure else j.status := by
    rw [← hid]
    by_cases h : j.id = job.id
    · rw [if_pos h, Table.Update.row_of_hits (by simpa [Stmt.onJobs, Store.setJobStatus] using h)]
      rfl
    · rw [if_neg h,
        Table.Update.row_of_not_hits (by simpa [Stmt.onJobs, Store.setJobStatus] using h)]
  refine ⟨_, ?_, hs⟩
  rw [failStuckJob, hoff, if_neg Bool.false_ne_true]
  refine find_advanceRun job.runId hset ?_
  rw [hs]
  split_ifs
  · exact JobStatus.noConfusion
  · exact hp

/-- **The watchdog fails the jobs it goes through**, and leaves alone what else is not pending. -/
theorem find_failJobs (env : Env) (todo : List JobRow) (hoff : ∀ job ∈ todo, Watch.online pool job = false)
    (hj : db.jobs.find id = some j) (hp : j.status ≠ .pending) :
    ∃ j', (todo.foldl (failStuckJob env pool) db).jobs.find id = some j' ∧
      j'.status = if id ∈ todo.map (·.id) then .failure else j.status := by
  induction todo generalizing db j with
  | nil => exact ⟨j, hj, rfl⟩
  | cons job todo ih =>
    obtain ⟨j₁, hj₁, hs₁⟩ := find_failStuckJob env (hoff job List.mem_cons_self) hj hp
    have hp₁ : j₁.status ≠ .pending := by
      rw [hs₁]
      split_ifs
      · exact JobStatus.noConfusion
      · exact hp
    obtain ⟨j', hj', hs'⟩ := ih (fun job hmem => hoff job (List.mem_cons_of_mem _ hmem)) hj₁ hp₁
    refine ⟨j', hj', ?_⟩
    rw [hs', hs₁]
    by_cases h : id = job.id
    · simp [h]
    · simp [h]

end Find

/-- A queued job is failed exactly when it is one of those the watchdog finds. -/
theorem hasFailed_iff {env : Env} (pool : Pool) {db : Db} (h : db.Unassigned) {j : JobRow}
    (hj : j ∈ db.jobs.rows) (hq : j.status = .queued) :
    (failJobsWaitingForARunner env pool db).HasFailed j.id ↔
      j ∈ db.jobsWaitingLongerThan env.runnerWait watchBatch := by
  obtain ⟨j', hj', hs⟩ := find_failJobs env
    (db.jobsWaitingLongerThan env.runnerWait watchBatch) (fun job hmem => h.not_online hmem pool)
    (db.jobs.find_of_mem hj) (by rw [hq]; exact JobStatus.noConfusion)
  change (failJobsWaitingForARunner env pool db).jobs.find j.id = some j' at hj'
  have hfailed : (failJobsWaitingForARunner env pool db).HasFailed j.id ↔ j'.status = .failure := by
    constructor
    · rintro ⟨r, hr, hid, hr'⟩
      have hfind := Table.find_of_mem _ hr
      rw [hid, hj'] at hfind
      cases hfind
      exact hr'
    · exact fun hf => ⟨j', Table.mem_of_find hj', Table.key_of_find hj', hf⟩
  rw [hfailed, hs]
  constructor
  · intro hf
    split_ifs at hf with hmem
    · obtain ⟨job, hjob, hid⟩ := List.mem_map.mp hmem
      rwa [← db.jobs.eq_of_key (Db.mem_jobsWaiting hjob).1 hj hid]
    · rw [hq] at hf
      cases hf
  · exact fun hmem => if_pos (List.mem_map_of_mem hmem)

/-- **The watchdog fails only jobs that no online host looks for exactly when it finds only such
jobs**, in every reachable state and for every snapshot of the hosts. -/
theorem watchdog_iff (env : Env) {w : World} (h : (machine env).Reachable Machine.anyStep w)
    (pool : Pool) : (∀ j ∈ w.db.jobs.rows, j.status = .queued →
        (failJobsWaitingForARunner env pool w.db).HasFailed j.id → ¬ w.Served pool j) ↔
      ∀ j ∈ w.db.jobsWaitingLongerThan env.runnerWait watchBatch, ¬ w.Served pool j := by
  have hun := unassigned_reachable h
  constructor
  · intro hall j hj
    obtain ⟨hrow, hwait⟩ := Db.mem_jobsWaiting hj
    have hq : j.status = .queued := by
      simp only [Db.waiting, Bool.and_eq_true, decide_eq_true_eq] at hwait
      exact hwait.1.1
    exact hall j hrow hq ((hasFailed_iff pool hun hrow hq).mpr hj)
  · intro hall j hj hq hf
    exact hall j ((hasFailed_iff pool hun hj hq).mp hf)

/-! ## The watchdog as a run of the machine -/

section Connect

variable {env : Env}

/-- The steps of a watchdog: its own, and those of the passes it starts. -/
def Watching (w : World) (a : Act) : Prop := Nudging w a ∨ a = .watch ∨ a = .watchJob 0 .ok

/-- The only watchdog is done with its next job. -/
theorem reach_watchJob (env : Env) (w : World) (hp : w.ctl.passes = []) {pool : Pool} {job : JobRow}
    {todo : List JobRow} (hx : w.ctl.watches = [⟨pool, job :: todo⟩]) (hpool : w.ctl.pool = pool) :
    ∃ c : Ctl, c.pool = pool ∧ c.watches = [⟨pool, todo⟩] ∧ c.passes = [] ∧
      (machine env).Reach Watching w ⟨failStuckJob env pool w.db job, c⟩ := by
  have hwatches : (w.ctl.watchTo 0 ⟨pool, job :: todo⟩ todo).watches = [⟨pool, todo⟩] := by
    simp [Ctl.watchTo, hx, Actors.put]
  unfold failStuckJob
  split_ifs with hon
  · have hstep : (machine env).step w (.watchJob 0 .ok) =
        some ⟨w.db, w.ctl.watchTo 0 ⟨pool, job :: todo⟩ todo⟩ := by
      simp [machine, step, act, hx, hon]
    exact ⟨w.ctl.watchTo 0 ⟨pool, job :: todo⟩ todo, hpool, hwatches, hp,
      Machine.Reach.single (Or.inr (Or.inr rfl)) hstep⟩
  · have hstep : (machine env).step w (.watchJob 0 .ok) =
        some ⟨w.db.exec (.setJobStatus job.id .failure (some (Watch.detail env job))),
          (w.ctl.watchTo 0 ⟨pool, job :: todo⟩ todo).spawn job.runId⟩ := by
      simp [machine, step, act, hx, hon]
    have hpasses : ((w.ctl.watchTo 0 ⟨pool, job :: todo⟩ todo).spawn job.runId).passes =
        [⟨job.runId, .jobsOf⟩] := by
      simp [Ctl.spawn, Ctl.watchTo, hp]
    obtain ⟨c, hleft, hreach⟩ := reach_pass env
      ⟨w.db.exec (.setJobStatus job.id .failure (some (Watch.detail env job))),
        (w.ctl.watchTo 0 ⟨pool, job :: todo⟩ todo).spawn job.runId⟩ hpasses
    have hsame : ((w.ctl.watchTo 0 ⟨pool, job :: todo⟩ todo).spawn job.runId).pool = pool := hpool
    rw [hsame] at hreach
    refine ⟨c, hleft.pool.trans hsame, hleft.watches.trans hwatches, hleft.passes, ?_⟩
    have hwatching : ∀ v b, Nudging v b → Watching v b := fun _ _ h => Or.inl h
    have hjob : Watching w (.watchJob 0 .ok) := Or.inr (Or.inr rfl)
    exact (Machine.Reach.single hjob hstep).trans (hreach.mono hwatching)

/-- **The machine can do what the watchdog computes**, when nothing else is running. -/
theorem reach_watchdog (env : Env) (w : World) (hp : w.ctl.passes = []) (hx : w.ctl.watches = []) :
    ∃ c : Ctl, (machine env).Reach Watching w
      ⟨failJobsWaitingForARunner env w.ctl.pool w.db, c⟩ := by
  have key : ∀ (todo : List JobRow) (w : World) (pool : Pool), w.ctl.passes = [] →
      w.ctl.watches = [⟨pool, todo⟩] → w.ctl.pool = pool →
      ∃ c : Ctl, (machine env).Reach Watching w ⟨todo.foldl (failStuckJob env pool) w.db, c⟩ := by
    intro todo
    induction todo with
    | nil => exact fun w _ _ _ _ => ⟨w.ctl, Machine.Reach.refl⟩
    | cons job todo ih =>
      intro w pool hp hx hpool
      obtain ⟨c, hpool', hwatches, hpasses, hreach⟩ := reach_watchJob env w hp hx hpool
      obtain ⟨c', hreach'⟩ := ih ⟨failStuckJob env pool w.db job, c⟩ pool hpasses hwatches hpool'
      exact ⟨c', hreach.trans hreach'⟩
  have hstep : (machine env).step w .watch = some ⟨w.db, { w.ctl with
      watches := [⟨w.ctl.pool, w.db.jobsWaitingLongerThan env.runnerWait watchBatch⟩] }⟩ := by
    simp [machine, step, act, hx]
  obtain ⟨c, hreach⟩ := key _ ⟨w.db, { w.ctl with
    watches := [⟨w.ctl.pool, w.db.jobsWaitingLongerThan env.runnerWait watchBatch⟩] }⟩ w.ctl.pool
    hp rfl rfl
  have hwatch : Watching w .watch := Or.inr (Or.inl rfl)
  exact ⟨c, (Machine.Reach.single hwatch hstep).trans hreach⟩

end Connect

/-! ## A job behind a long build -/

/-- A run of one job that waits on its queue for longer than a runner is given. -/
def waited : List Act := .submit "r" .plain .single :: (schedule 1 1 ++ [.tick 901])

/-- The host of the network is down. -/
def Pool.down : Pool where
  networks := [⟨"n1", "net", true, [⟨"hd-1", "host", .offline⟩]⟩]
  defaultNetworkId := "n1"
  defaultNodeId := "hd-1"

theorem waited_spec : ∃ w, (machine .plain).Reachable Machine.anyStep w ∧
    (∃ j ∈ w.db.jobsWaitingLongerThan Env.plain.runnerWait watchBatch,
      j.status = .queued ∧ w.Served .single j) ∧ ∀ j, ¬ w.Served .down j := by
  have hrun : ((machine .plain).run (World.start 0 .single) waited).map (fun w =>
      ((w.db.jobsWaitingLongerThan Env.plain.runnerWait watchBatch).map fun j => (j.id, j.status),
        w.ctl.msgs.map fun m => (m.body.jobId, m.route))) =
      some ([("r.build", .queued)], [("r.build", .network "n1")]) := by decide
  obtain ⟨w, hw, heq⟩ := Option.map_eq_some_iff.mp hrun
  obtain ⟨hjobs, hmsgs⟩ := Prod.mk.inj heq
  have hmsg : ("r.build", Route.network "n1") ∈ w.ctl.msgs.map fun m => (m.body.jobId, m.route) := by
    rw [hmsgs]
    exact List.mem_singleton_self _
  obtain ⟨m, hm, hmeq⟩ := List.mem_map.mp hmsg
  obtain ⟨hid, hroute⟩ := Prod.mk.inj hmeq
  have hjob : ("r.build", JobStatus.queued) ∈
      (w.db.jobsWaitingLongerThan Env.plain.runnerWait watchBatch).map fun j => (j.id, j.status) := by
    rw [hjobs]
    exact List.mem_singleton_self _
  obtain ⟨j, hj, hjeq⟩ := List.mem_map.mp hjob
  obtain ⟨hjid, hs⟩ := Prod.mk.inj hjeq
  refine ⟨w, Machine.reachable_of_run ⟨0, .single, rfl⟩ hw, ⟨j, hj, hs, m, hm, ?_, ?_⟩, ?_⟩
  · rw [hid, hjid]
  · rw [hroute]
    decide
  · rintro j' ⟨m', hm', -, hon⟩
    have hmem := List.mem_map_of_mem (f := fun m => (m.body.jobId, m.route)) hm'
    rw [hmsgs, List.mem_singleton] at hmem
    rw [(Prod.mk.inj hmem).2] at hon
    revert hon
    decide

theorem watchdog_down : ∃ w : World, (∃ j ∈ w.db.jobs.rows,
      (failJobsWaitingForARunner .plain .down w.db).HasFailed j.id) ∧
    ∀ j ∈ w.db.jobs.rows, j.status = .queued →
      (failJobsWaitingForARunner .plain .down w.db).HasFailed j.id → ¬ w.Served .down j := by
  obtain ⟨w, hr, ⟨j, hj, hq, -⟩, hdown⟩ := waited_spec
  have hrow := (Db.mem_jobsWaiting hj).1
  exact ⟨w, ⟨j, hrow, (hasFailed_iff .down (unassigned_reachable hr) hrow hq).mpr hj⟩,
    (watchdog_iff .plain hr .down).mpr fun j _ => hdown j⟩

/-- The job waits behind a build on a host that is online, and is failed. -/
theorem watchdog_fails_online : ¬ ∀ (env : Env) (w : World),
    (machine env).Reachable Machine.anyStep w → ∀ pool, ∀ j ∈ w.db.jobs.rows, j.status = .queued →
      (failJobsWaitingForARunner env pool w.db).HasFailed j.id → ¬ w.Served pool j := by
  intro h
  obtain ⟨w, hr, ⟨j, hj, hq, hserved⟩, -⟩ := waited_spec
  have hrow := (Db.mem_jobsWaiting hj).1
  exact h .plain w hr .single j hrow hq
    ((hasFailed_iff .single (unassigned_reachable hr) hrow hq).mpr hj) hserved

end HeyoCi
