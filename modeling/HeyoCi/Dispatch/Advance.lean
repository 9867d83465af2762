import HeyoCi.Dispatch.Decide

/-!
# One pass when nothing else moves

`advance_run` and `nudge_stalled_runs` as functions on the database, for passes that run alone and
whose publishes all succeed.

* `Decision.stmt`, `advanceRun`, `nudgeStalledRuns`: the two as functions;
* `JobRow.advanced`: what a pass makes of one row;
* **`jobs_advanceRun`**, **`jobs_nudge`**: the job rows after each, row by row.
-/

namespace HeyoCi

/-- The statement of a decision. -/
def Decision.stmt (jobId : String) : Decision → Stmt
  | .leave => .read
  | .finish status error => .setJobStatus jobId status error
  | .queue _ _ => .queueJob jobId

/-- What a pass on a run reads. -/
def Db.snapshot (db : Db) (runId : String) : Snapshot :=
  ⟨db.jobsOf runId, db.needsContext runId, ciScope (db.getRun runId)⟩

section Advance

variable (env : Env) (pool : Pool)

def advanceJob (snap : Snapshot) (db : Db) (job : JobRow) : Db :=
  db.exec ((jobDecision env pool snap job).stmt job.id)

def advanceJobs (db : Db) (runId : String) : Db :=
  (db.jobsOf runId).foldl (advanceJob env pool (db.snapshot runId)) db

def advanceRun (db : Db) (runId : String) : Db :=
  (advanceJobs env pool db runId).exec
    (.setRunStatus runId (rollUp ((advanceJobs env pool db runId).jobStatuses runId)) none)

/-- How many runs a nudge takes. -/
def nudgeBatch : Nat := 100

def nudgeStalledRuns (db : Db) : Db :=
  (db.runsWithPendingJobs nudgeBatch).foldl (advanceRun env pool) db

/-- What a pass with this snapshot makes of a row. -/
def JobRow.advanced (snap : Snapshot) (now : Nat) (j : JobRow) : JobRow :=
  (((jobDecision env pool snap j).stmt j.id).onJobs now).row j

end Advance

/-! ## The rows after a pass -/

section Rows

variable {env : Env} {pool : Pool} {snap : Snapshot} {db : Db}

theorem JobRow.same_advanced (now : Nat) (j : JobRow) : j.Same (j.advanced env pool snap now) :=
  Stmt.same now _ j

theorem exec_decision (d : Decision) (jobId : String) :
    db.exec (d.stmt jobId) = { db with jobs := db.jobs.update ((d.stmt jobId).onJobs db.now) } := by
  cases d with
  | leave | finish | queue =>
    simp only [Decision.stmt, Db.exec, Stmt.onRuns, Table.update_none]

/-- The statement of a decision leaves the other jobs alone. -/
theorem row_decision_of_ne {now : Nat} {d : Decision} {jobId : String} {j : JobRow}
    (h : j.id ≠ jobId) : ((d.stmt jobId).onJobs now).row j = j := by
  refine Table.Update.row_of_not_hits ?_
  cases d with
  | leave => rfl
  | finish | queue => simp [Decision.stmt, Stmt.onJobs, Store.setJobStatus, Store.queueJob, h]

/-- The turns of the loop over distinct jobs, together. -/
theorem foldl_advanceJob (env : Env) (pool : Pool) (snap : Snapshot) (db : Db) (js : List JobRow) (hn : (js.map (·.id)).Nodup) :
    ∃ jobs, js.foldl (advanceJob env pool snap) db = { db with jobs := jobs } ∧
      jobs.rows = db.jobs.rows.map fun r => match js.find? (·.id = r.id) with
        | some j => (((jobDecision env pool snap j).stmt j.id).onJobs db.now).row r
        | none => r := by
  induction js generalizing db with
  | nil => exact ⟨db.jobs, rfl, by simp⟩
  | cons j js ih =>
    obtain ⟨hj, hn⟩ := List.nodup_cons.mp hn
    rw [List.foldl_cons, advanceJob, exec_decision]
    obtain ⟨jobs, heq, hrows⟩ := ih { db with
      jobs := db.jobs.update (((jobDecision env pool snap j).stmt j.id).onJobs db.now) } hn
    refine ⟨jobs, heq, hrows.trans ?_⟩
    simp only [Table.update, List.map_map]
    refine List.map_congr_left fun r _ => ?_
    have hkey := (((jobDecision env pool snap j).stmt j.id).onJobs db.now).key_row r
    rw [Function.comp_apply, hkey]
    by_cases hid : j.id = r.id
    · have hnone : js.find? (·.id = r.id) = none := by
        rw [List.find?_eq_none]
        intro j' hj' he
        exact hj (List.mem_map.mpr ⟨j', hj', (of_decide_eq_true he).trans hid.symm⟩)
      simp [hnone, hid]
    · rw [row_decision_of_ne (Ne.symm hid)]
      simp [hid]

theorem Db.nodup_jobsOf (db : Db) (runId : String) : ((db.jobsOf runId).map (·.id)).Nodup := by
  have hperm := (List.perm_insertionSort JobRow.Before
    (db.jobs.rows.filter fun j => j.runId = runId)).map (·.id)
  exact hperm.nodup_iff.mpr ((List.Sublist.map _ List.filter_sublist).nodup db.jobs.nodup)

theorem Db.find_jobsOf (runId : String) {r : JobRow} (hr : r ∈ db.jobs.rows) :
    (db.jobsOf runId).find? (·.id = r.id) = if r.runId = runId then some r else none := by
  cases h : (db.jobsOf runId).find? (·.id = r.id) with
  | none =>
    rw [if_neg]
    intro hrun
    have := List.find?_eq_none.mp h r (Db.mem_jobsOf.mpr ⟨hr, hrun⟩)
    exact this (decide_eq_true rfl)
  | some j =>
    have hj := Db.mem_jobsOf.mp (List.mem_of_find?_eq_some h)
    have hid : j.id = r.id := by simpa using List.find?_some h
    obtain rfl := db.jobs.eq_of_key hj.1 hr hid
    rw [if_pos hj.2]

/-- **The job rows after a pass.** -/
theorem jobs_advanceRun (env : Env) (pool : Pool) (db : Db) (runId : String) :
    (advanceRun env pool db runId).now = db.now ∧
      (advanceRun env pool db runId).jobs.rows = db.jobs.rows.map fun j =>
        if j.runId = runId then j.advanced env pool (db.snapshot runId) db.now else j := by
  obtain ⟨jobs, heq, hrows⟩ := foldl_advanceJob env pool (db.snapshot runId) db _
    (db.nodup_jobsOf runId)
  have hadv : advanceJobs env pool db runId = { db with jobs := jobs } := heq
  rw [advanceRun, hadv]
  simp only [Db.exec, Stmt.onJobs, Table.update_none, hrows, true_and]
  refine List.map_congr_left fun j hj => ?_
  rw [Db.find_jobsOf runId hj]
  split_ifs <;> rfl

end Rows

/-! ## The rows after a nudge -/

section Nudge

variable {env : Env} {pool : Pool} {db : Db} {runId runId' : String}

theorem Db.snapshot_congr {db' : Db} (hjobs : db'.jobsOf runId = db.jobsOf runId)
    (hrun : db'.getRun runId = db.getRun runId) : db'.snapshot runId = db.snapshot runId := by
  simp only [snapshot, needsContext, hjobs, hrun]

/-- A pass leaves what passes on other runs read. -/
theorem snapshot_advanceRun (h : runId' ≠ runId) :
    (advanceRun env pool db runId).snapshot runId' = db.snapshot runId' := by
  refine Db.snapshot_congr ?_ ?_
  · rw [Db.jobsOf, (jobs_advanceRun env pool db runId).2, List.filter_map, Db.jobsOf]
    congr 1
    have hfilter : (db.jobs.rows.filter ((fun j => decide (j.runId = runId')) ∘ fun j =>
        if j.runId = runId then j.advanced env pool (db.snapshot runId) db.now else j)) =
          db.jobs.rows.filter fun j => j.runId = runId' := by
      refine List.filter_congr fun j _ => ?_
      rw [Function.comp_apply]
      split_ifs with hj
      · rw [(JobRow.same_advanced db.now j).runId]
      · rfl
    rw [hfilter, List.map_congr_left (g := id), List.map_id]
    intro j hj
    have hj : j.runId = runId' := by simpa using (List.mem_filter.mp hj).2
    rw [if_neg (fun he => h (hj.symm.trans he))]
    rfl
  · obtain ⟨jobs, heq, -⟩ := foldl_advanceJob env pool (db.snapshot runId) db _
      (db.nodup_jobsOf runId)
    have hadv : advanceJobs env pool db runId = { db with jobs := jobs } := heq
    rw [advanceRun, hadv]
    simp only [Db.getRun, Db.exec, Stmt.onRuns, Table.find_update]
    cases hr : db.runs.find runId' with
    | none => rfl
    | some r =>
      rw [Option.map_some, Table.Update.row_of_not_hits]
      simpa [Store.setRunStatus, Table.key_of_find hr] using h

/-- **The job rows after passes on distinct runs.** -/
theorem jobs_foldl_advanceRun (l : List String) (hl : l.Nodup) (db : Db) :
    (l.foldl (advanceRun env pool) db).jobs.rows = db.jobs.rows.map fun j =>
      if j.runId ∈ l then j.advanced env pool (db.snapshot j.runId) db.now else j := by
  induction l generalizing db with
  | nil => simp
  | cons runId l ih =>
    obtain ⟨hmem, hl⟩ := List.nodup_cons.mp hl
    obtain ⟨hnow, hrows⟩ := jobs_advanceRun env pool db runId
    rw [List.foldl_cons, ih hl, hrows, hnow, List.map_map]
    refine List.map_congr_left fun j _ => ?_
    rw [Function.comp_apply]
    by_cases hj : j.runId = runId
    · rw [if_pos hj, (JobRow.same_advanced db.now j).runId, hj, if_neg hmem,
        if_pos List.mem_cons_self]
    · rw [if_neg hj, snapshot_advanceRun hj]
      simp only [List.mem_cons, hj, false_or]

theorem jobs_nudge (db : Db) : (nudgeStalledRuns env pool db).jobs.rows = db.jobs.rows.map fun j =>
    if j.runId ∈ db.runsWithPendingJobs nudgeBatch
    then j.advanced env pool (db.snapshot j.runId) db.now else j :=
  jobs_foldl_advanceRun _ (Db.nodup_runsWithPendingJobs nudgeBatch) db

end Nudge

end HeyoCi
