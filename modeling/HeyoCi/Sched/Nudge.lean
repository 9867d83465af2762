import HeyoCi.Dispatch.Advance
import HeyoCi.Sched.Order

/-!
# What a nudge leaves behind

A nudge takes some of the runs that are not over, and decides about each of their jobs from one
snapshot. A job whose need is skipped or failed by that very pass is left for the next one, and a
run that is over by then is not taken again.

* `Db.Planned`: every job has its plan and every need a cell;
* `Db.Drops`: the pass finishes the job without queueing it;
* `NothingReady`, `NudgeReaches`: no job is left ready, and the condition on the state before;
* **`nothingReady_iff`**: the two agree in every reachable state;
* **`reach_nudge`**: the machine can do what `nudgeStalledRuns` computes.
-/

namespace HeyoCi

namespace Db

variable (db : Db)

/-- Every job has its plan, and every need of it a cell. -/
def Planned : Prop := ∀ j ∈ db.jobs.rows, ∃ plan, j.plan = .ok plan ∧
  ∀ n ∈ plan.needs, ∃ c ∈ db.jobs.rows, c.runId = j.runId ∧ c.baseId = n

variable {db}

theorem planned_exec {st : Stmt} (h : db.Planned) : (db.exec st).Planned := by
  intro j' hj'
  rcases mem_exec_jobs.mp hj' with ⟨j, hj, rfl⟩ | hnew
  · obtain ⟨plan, hplan, hneeds⟩ := h j hj
    have hs := st.same db.now j
    refine ⟨plan, hs.plan.trans hplan, fun n hn => ?_⟩
    obtain ⟨c, hc, hrun, hbase⟩ := hneeds n hn
    have hsc := st.same db.now c
    exact ⟨_, mem_exec_jobs.mpr (Or.inl ⟨c, hc, rfl⟩), by rw [hsc.runId, hs.runId, hrun],
      hsc.baseId.trans hbase⟩
  · obtain ⟨-, -, -, req, plan, hst, job, hjob, heq⟩ := inserted_spec hnew
    refine ⟨job, by rw [heq]; rfl, fun n hn => ?_⟩
    obtain ⟨c, hc, hbase⟩ := plan.needs_cells job hjob n hn
    refine ⟨c.row db.now j'.runId, mem_exec_jobs.mpr (Or.inr ?_), rfl, hbase⟩
    rw [hst, inserted] at hnew ⊢
    split_ifs at hnew ⊢
    · exact List.mem_map.mpr ⟨c, hc, rfl⟩
    · exact absurd hnew List.not_mem_nil

theorem planned_reachable {env : Env} {ok : World → Act → Prop} {w : World}
    (h : (machine env).Reachable ok w) : w.db.Planned := by
  refine Machine.Reachable.inv (fun w => w.db.Planned) ?_ ?_ h
  · rintro w ⟨now, pool, rfl⟩ j hj
    cases hj
  · intro w a w' _ hw _ hstep
    obtain ⟨st, c, -, -, rfl⟩ := step_cases hstep
    exact planned_exec hw

/-- The gate of a pass is open for the ready jobs. -/
theorem Planned.needsDone_iff (h : db.Planned) {j : JobRow} (hj : j ∈ db.jobs.rows) {plan : JobPlan}
    (hplan : j.plan = .ok plan) : needsDone (db.jobsOf j.runId) plan = true ↔ j.Ready db := by
  obtain ⟨plan', hplan', hcells⟩ := h j hj
  obtain rfl : plan = plan' := Except.ok.inj (hplan.symm.trans hplan')
  rw [HeyoCi.needsDone_iff]
  constructor
  · intro hn plan' hplan' n hmem c hc hrun hbase
    obtain rfl : plan = plan' := Except.ok.inj (hplan.symm.trans hplan')
    exact ((baseTerminal_iff _ n).mp (hn n hmem)).2 c (mem_jobsOf.mpr ⟨hc, hrun⟩) hbase
  · intro hr n hmem
    obtain ⟨c, hc, hrun, hbase⟩ := hcells n hmem
    refine (baseTerminal_iff _ n).mpr ⟨⟨c, mem_jobsOf.mpr ⟨hc, hrun⟩, hbase⟩, fun c hc hbase => ?_⟩
    exact hr plan hplan n hmem c (mem_jobsOf.mp hc).1 (mem_jobsOf.mp hc).2 hbase

end Db

section Reaches

variable (env : Env) (pool : Pool) (db : Db)

/-- A pass finishes the job without queueing it: its guard is not satisfied, or it has no route. -/
def Db.Drops (j : JobRow) : Prop := j.status = .pending ∧ j.Ready db ∧ ∃ plan, j.plan = .ok plan ∧
  (shouldRun env plan (db.needsContext j.runId) (ciScope (db.getRun j.runId)) ≠ .ok true ∨
    ∃ e, routeFor pool plan = .error e)

/-- Some need of the job is unfinished, and the pass does not finish it. -/
def Db.Blocked (j : JobRow) : Prop := ∃ plan, j.plan = .ok plan ∧ ∃ n ∈ plan.needs,
  ∃ c ∈ db.jobs.rows, c.runId = j.runId ∧ c.baseId = n ∧ c.status.isTerminal = false ∧
    ¬ db.Drops env pool c

/-- No run that was not cancelled has a pending job that is ready afterwards. -/
def NothingReady (db' : Db) : Prop := ∀ r ∈ db.runs.rows, r.status ≠ .cancelled →
  ∀ j ∈ db'.jobs.rows, j.runId = r.id → j.status = .pending → ¬ j.Ready db'

/-- The nudge takes every run with a ready job, and in the runs it takes, what is not ready stays
blocked by a job the pass itself does not finish. -/
def NudgeReaches : Prop := ∀ r ∈ db.runs.rows, r.status ≠ .cancelled →
  ∀ j ∈ db.jobs.rows, j.runId = r.id → j.status = .pending →
    if r.id ∈ db.runsWithPendingJobs nudgeBatch then j.Ready db ∨ db.Blocked env pool j
    else ¬ j.Ready db

end Reaches

/-! ## What a pass makes of a status -/

section Status

variable {env : Env} {pool : Pool} {db : Db} {j : JobRow}

/-- A pass leaves a job alone, finishes it without queueing it, or queues it. -/
theorem advanced_cases (env : Env) (pool : Pool) (h : db.Planned) (hj : j ∈ db.jobs.rows) :
    let s := (j.advanced env pool (db.snapshot j.runId) db.now).status
    (s = j.status ∧ ¬ (j.status = .pending ∧ j.Ready db)) ∨
      (s.isTerminal = true ∧ db.Drops env pool j) ∨
      (s = .queued ∧ j.status = .pending ∧ j.Ready db ∧ ¬ db.Drops env pool j) := by
  obtain ⟨plan₀, hplan₀, -⟩ := h j hj
  have hd := decided env pool (db.snapshot j.runId) j
  unfold JobRow.advanced
  generalize jobDecision env pool (db.snapshot j.runId) j = d at hd
  cases hd with
  | busy hp => exact Or.inl ⟨rfl, fun hr => hp hr.1⟩
  | unready hp plan hplan hn =>
    refine Or.inl ⟨rfl, fun hr => ?_⟩
    have := (h.needsDone_iff hj hplan).mpr hr.2
    rw [Db.snapshot] at hn
    rw [hn] at this
    cases this
  | badPlan hp e hplan =>
    rw [hplan] at hplan₀
    cases hplan₀
  | skip hp plan hplan hn hr =>
    refine Or.inr (Or.inl ⟨?_, hp, (h.needsDone_iff hj hplan).mp hn, plan, hplan, Or.inl ?_⟩)
    · simp [Decision.stmt, Stmt.onJobs, Table.Update.row, Store.setJobStatus, JobStatus.isTerminal]
    · intro hr'
      have := hr.symm.trans hr'
      cases this
  | fail hp plan hplan hn hr t =>
    refine Or.inr (Or.inl ⟨?_, hp, (h.needsDone_iff hj hplan).mp hn, plan, hplan, hr⟩)
    simp [Decision.stmt, Stmt.onJobs, Table.Update.row, Store.setJobStatus, JobStatus.isTerminal]
  | queue hp plan hplan hn hr route hroute =>
    refine Or.inr (Or.inr ⟨?_, hp, (h.needsDone_iff hj hplan).mp hn, ?_⟩)
    · simp [Decision.stmt, Stmt.onJobs, Table.Update.row, Store.queueJob, hp]
    · rintro ⟨-, -, plan', hplan', hcase⟩
      obtain rfl : plan = plan' := Except.ok.inj (hplan.symm.trans hplan')
      rcases hcase with hcase | ⟨e, he⟩
      · exact hcase hr
      · rw [hroute] at he
        cases he

/-- What the nudge makes of a row. -/
def Db.nudged (env : Env) (pool : Pool) (db : Db) (j : JobRow) : JobRow :=
  if j.runId ∈ db.runsWithPendingJobs nudgeBatch
  then j.advanced env pool (db.snapshot j.runId) db.now else j

theorem Db.same_nudged (env : Env) (pool : Pool) (db : Db) (j : JobRow) : j.Same (db.nudged env pool j) := by
  unfold nudged
  split_ifs
  · exact JobRow.same_advanced _ _
  · exact JobRow.Same.refl j

theorem mem_nudge {j' : JobRow} : j' ∈ (nudgeStalledRuns env pool db).jobs.rows ↔
    ∃ j ∈ db.jobs.rows, db.nudged env pool j = j' := by
  rw [jobs_nudge]
  exact List.mem_map

/-- In a run the nudge takes, exactly the pending jobs that were not ready stay pending. -/
theorem pending_nudged (h : db.Planned) (hj : j ∈ db.jobs.rows)
    (hsel : j.runId ∈ db.runsWithPendingJobs nudgeBatch) :
    (db.nudged env pool j).status = .pending ↔ j.status = .pending ∧ ¬ j.Ready db := by
  rw [Db.nudged, if_pos hsel]
  rcases advanced_cases env pool h hj with ⟨hs, hn⟩ | ⟨hs, hd⟩ | ⟨hs, hp, hr, -⟩
  · rw [hs]
    exact ⟨fun hp => ⟨hp, fun hr => hn ⟨hp, hr⟩⟩, And.left⟩
  · refine ⟨fun hp => ?_, fun hp => absurd hd.2.1 hp.2⟩
    rw [hp] at hs
    cases hs
  · refine ⟨fun hp' => ?_, fun hp' => absurd hr hp'.2⟩
    rw [hs] at hp'
    cases hp'

/-- In a run the nudge takes, the finished jobs are those that were and those it drops. -/
theorem terminal_nudged (h : db.Planned) (hj : j ∈ db.jobs.rows)
    (hsel : j.runId ∈ db.runsWithPendingJobs nudgeBatch) :
    (db.nudged env pool j).status.isTerminal = true ↔
      j.status.isTerminal = true ∨ db.Drops env pool j := by
  rw [Db.nudged, if_pos hsel]
  rcases advanced_cases env pool h hj with ⟨hs, hn⟩ | ⟨hs, hd⟩ | ⟨hs, hp, -, hd⟩
  · rw [hs]
    exact ⟨Or.inl, fun ht => ht.resolve_right fun hd => hn ⟨hd.1, hd.2.1⟩⟩
  · exact ⟨fun _ => Or.inr hd, fun _ => hs⟩
  · rw [hs, hp]
    refine ⟨fun ht => ?_, fun ht => absurd (ht.resolve_left (by decide)) hd⟩
    cases ht

end Status

/-! ## What the nudge leaves -/

section Leaves

variable {env : Env} {pool : Pool} {db : Db} {j : JobRow}

/-- In a run the nudge takes, a job is ready afterwards when its unfinished needs are dropped. -/
theorem ready_nudged (h : db.Planned) (hj : j ∈ db.jobs.rows)
    (hsel : j.runId ∈ db.runsWithPendingJobs nudgeBatch) :
    (db.nudged env pool j).Ready (nudgeStalledRuns env pool db) ↔ ¬ db.Blocked env pool j := by
  obtain ⟨plan, hplan, -⟩ := h j hj
  have hs := db.same_nudged env pool j
  constructor
  · rintro hr ⟨plan', hplan', n, hn, c, hc, hrun, hbase, hopen, hdrop⟩
    have hsc := db.same_nudged env pool c
    have := hr plan' (hs.plan.trans hplan') n hn _ (mem_nudge.mpr ⟨c, hc, rfl⟩)
      (by rw [hsc.runId, hs.runId, hrun]) (hsc.baseId.trans hbase)
    rcases (terminal_nudged h hc (hrun ▸ hsel)).mp this with ht | hd
    · rw [hopen] at ht
      cases ht
    · exact hdrop hd
  · intro hb plan' hplan' n hn c' hc' hrun hbase
    obtain ⟨c, hc, rfl⟩ := mem_nudge.mp hc'
    have hsc := db.same_nudged env pool c
    rw [hsc.runId, hs.runId] at hrun
    rw [terminal_nudged h hc (hrun ▸ hsel)]
    by_contra hno
    rw [not_or] at hno
    exact hb ⟨plan', hs.plan.symm.trans hplan', n, hn, c, hc, hrun, hsc.baseId.symm.trans hbase,
      by simpa using hno.1, hno.2⟩

/-- In a run the nudge does not take, nothing changes. -/
theorem ready_unnudged (hsel : j.runId ∉ db.runsWithPendingJobs nudgeBatch) :
    j.Ready (nudgeStalledRuns env pool db) ↔ j.Ready db := by
  have hkeep : ∀ c, c.runId = j.runId → db.nudged env pool c = c := fun c hc => by
    rw [Db.nudged, if_neg (hc ▸ hsel)]
  constructor
  · intro hr plan hplan n hn c hc hrun hbase
    exact hr plan hplan n hn c (mem_nudge.mpr ⟨c, hc, hkeep c hrun⟩) hrun hbase
  · intro hr plan hplan n hn c' hc' hrun hbase
    obtain ⟨c, hc, rfl⟩ := mem_nudge.mp hc'
    rw [(db.same_nudged env pool c).runId] at hrun
    rw [hkeep c hrun] at hbase ⊢
    exact hr plan hplan n hn c hc hrun hbase

end Leaves

/-- **A nudge leaves no ready job pending exactly when it takes every run with one, and every job
that is not ready stays blocked.** -/
theorem nothingReady_iff (env : Env) {w : World} (h : (machine env).Reachable Machine.anyStep w) :
    NothingReady w.db (nudgeStalledRuns env w.ctl.pool w.db) ↔
      NudgeReaches env w.ctl.pool w.db := by
  have hplanned := Db.planned_reachable h
  generalize w.db = db, w.ctl.pool = pool at hplanned
  refine forall₃_congr fun r hr hc => ?_
  constructor
  · intro hn j hj hrun hp
    split_ifs with hsel
    · rw [← hrun] at hsel
      by_contra hno
      rw [not_or] at hno
      exact hn _ (mem_nudge.mpr ⟨j, hj, rfl⟩) ((db.same_nudged env pool j).runId.trans hrun)
        ((pending_nudged hplanned hj hsel).mpr ⟨hp, hno.1⟩)
        ((ready_nudged hplanned hj hsel).mpr hno.2)
    · rw [← hrun] at hsel
      have hkeep : db.nudged env pool j = j := if_neg hsel
      have := hn j (mem_nudge.mpr ⟨j, hj, hkeep⟩) hrun hp
      rwa [ready_unnudged hsel] at this
  · intro hcond j' hj' hrun hp hready
    obtain ⟨j, hj, rfl⟩ := mem_nudge.mp hj'
    rw [(db.same_nudged env pool j).runId] at hrun
    by_cases hsel : j.runId ∈ db.runsWithPendingJobs nudgeBatch
    · obtain ⟨hp, hnot⟩ := (pending_nudged hplanned hj hsel).mp hp
      have := hcond j hj hrun hp
      rw [if_pos (hrun ▸ hsel)] at this
      exact (ready_nudged hplanned hj hsel).mp hready (this.resolve_left hnot)
    · have hkeep : db.nudged env pool j = j := if_neg hsel
      rw [hkeep] at hp hready
      have := hcond j hj hrun hp
      rw [if_neg (hrun ▸ hsel)] at this
      exact this ((ready_unnudged hsel).mp hready)

/-! ## The nudge as a run of the machine -/

section Connect

variable {env : Env} {w : World} {runId : String}

/-- The steps of a nudge: calls of `advance_run`, and their statements and publishes, which succeed. -/
def Nudging (_ : World) (a : Act) : Prop := (∃ runId, a = .advance runId) ∨ a = .pass 0 .ok

/-- Only the passes moved, as far as a pass can tell, and these are there now. -/
structure Ctl.Left (c c' : Ctl) (passes : List Pass) : Prop where
  pool : c'.pool = c.pool
  watches : c'.watches = c.watches
  passes : c'.passes = passes

theorem Ctl.Left.trans {c c' c'' : Ctl} {ps ps' : List Pass} (h : c.Left c' ps)
    (h' : c'.Left c'' ps') : c.Left c'' ps' :=
  ⟨h'.pool.trans h.pool, h'.watches.trans h.watches, h'.passes⟩

/-- The only pass moves. -/
theorem reach_move (env : Env) (w : World) {p : Pass} (h : w.ctl.passes = [p]) {m : PassMove}
    (hm : p.move env w.ctl.pool w.db .ok = m) :
    ∃ c : Ctl, w.ctl.Left c (m.next.map (Pass.mk p.runId)).toList ∧
      (machine env).Reach Nudging w ⟨w.db.exec m.stmt, c⟩ := by
  have hstep : (machine env).step w (.pass 0 .ok) = some ⟨w.db.exec m.stmt, w.ctl.passTo 0 p m⟩ := by
    simp [machine, step, act, h, hm, Pass.collapses]
  refine ⟨w.ctl.passTo 0 p m, ⟨?_, ?_, ?_⟩, Machine.Reach.single (Or.inr rfl) hstep⟩
  · cases hs : m.send <;> simp [Ctl.passTo, Ctl.send, hs]
  · cases hs : m.send <;> simp [Ctl.passTo, Ctl.send, hs]
  · cases hn : m.next <;> simp [Ctl.passTo, h, hn, Actors.put]

/-- A turn of the loop, with its publish. -/
theorem reach_turn (env : Env) {snap : Snapshot} {j : JobRow} {todo : List JobRow}
    (h : w.ctl.passes = [⟨runId, .next snap (j :: todo)⟩]) :
    ∃ c : Ctl, w.ctl.Left c [⟨runId, .next snap todo⟩] ∧
      (machine env).Reach Nudging w ⟨advanceJob env w.ctl.pool snap w.db j, c⟩ := by
  obtain ⟨c, hleft, hreach⟩ := reach_move env w h rfl
  simp only [Pass.move, Pass.job] at hleft hreach
  unfold advanceJob
  cases hd : jobDecision env w.ctl.pool snap j with
  | leave | finish =>
    rw [hd] at hleft hreach
    exact ⟨c, hleft, hreach⟩
  | queue plan route =>
    rw [hd] at hleft hreach
    simp only at hleft hreach
    split_ifs at hleft with ha
    · obtain ⟨c', hleft', hreach'⟩ := reach_move env ⟨_, c⟩ hleft.passes rfl
      rw [Pass.move, Db.exec_read] at hreach'
      exact ⟨c', hleft.trans hleft', hreach.trans hreach'⟩
    · exact ⟨c, hleft, hreach⟩

/-- The only pass goes through its loop. -/
theorem reach_loop (env : Env) {snap : Snapshot} (todo : List JobRow) (w : World)
    (h : w.ctl.passes = [⟨runId, .next snap todo⟩]) :
    ∃ c : Ctl, w.ctl.Left c [⟨runId, .next snap []⟩] ∧ (machine env).Reach Nudging w
      ⟨todo.foldl (advanceJob env w.ctl.pool snap) w.db, c⟩ := by
  induction todo generalizing w with
  | nil => exact ⟨w.ctl, ⟨rfl, rfl, h⟩, Machine.Reach.refl⟩
  | cons j todo ih =>
    obtain ⟨c, hleft, hreach⟩ := reach_turn env h
    obtain ⟨c', hleft', hreach'⟩ := ih ⟨advanceJob env w.ctl.pool snap w.db j, c⟩ hleft.passes
    rw [hleft.pool] at hreach'
    exact ⟨c', hleft.trans hleft', hreach.trans hreach'⟩

/-- **A pass alone computes `advanceRun`.** -/
theorem reach_pass (env : Env) (w : World) (h : w.ctl.passes = [⟨runId, .jobsOf⟩]) :
    ∃ c : Ctl, w.ctl.Left c [] ∧
      (machine env).Reach Nudging w ⟨advanceRun env w.ctl.pool w.db runId, c⟩ := by
  obtain ⟨c₁, hl₁, h₁⟩ := reach_move env w h rfl
  rw [Pass.move, Db.exec_read] at h₁
  obtain ⟨c₂, hl₂, h₂⟩ := reach_move env ⟨w.db, c₁⟩ hl₁.passes rfl
  rw [Pass.move, Db.exec_read] at h₂
  obtain ⟨c₃, hl₃, h₃⟩ := reach_move env ⟨w.db, c₂⟩ hl₂.passes rfl
  rw [Pass.move, Db.exec_read] at h₃
  obtain ⟨c₄, hl₄, h₄⟩ := reach_loop env _ ⟨w.db, c₃⟩ hl₃.passes
  have hread := (hl₁.trans hl₂).trans hl₃
  have hloop : (machine env).Reach Nudging w ⟨advanceJobs env w.ctl.pool w.db runId, c₄⟩ := by
    rw [hread.pool] at h₄
    exact ((h₁.trans h₂).trans h₃).trans h₄
  obtain ⟨c₅, hl₅, h₅⟩ := reach_move env ⟨advanceJobs env w.ctl.pool w.db runId, c₄⟩ hl₄.passes rfl
  rw [Pass.move, Db.exec_read] at h₅
  obtain ⟨c₆, hl₆, h₆⟩ := reach_move env ⟨advanceJobs env w.ctl.pool w.db runId, c₅⟩ hl₅.passes rfl
  rw [Pass.move, Db.exec_read] at h₆
  obtain ⟨c₇, hl₇, h₇⟩ := reach_move env ⟨advanceJobs env w.ctl.pool w.db runId, c₆⟩ hl₆.passes rfl
  exact ⟨c₇, (((hread.trans hl₄).trans hl₅).trans hl₆).trans hl₇,
    ((hloop.trans h₅).trans h₆).trans h₇⟩

theorem reach_advanceRun (env : Env) (w : World) {r : Run} (h : w.ctl.passes = [])
    (hr : w.db.getRun runId = some r) : ∃ c : Ctl, w.ctl.Left c [] ∧
      (machine env).Reach Nudging w ⟨advanceRun env w.ctl.pool w.db runId, c⟩ := by
  have hstart : (machine env).Reach Nudging w ⟨w.db, w.ctl.spawn runId⟩ := by
    refine Machine.Reach.single (Or.inl ⟨runId, rfl⟩) ?_
    simp [machine, step, act, hr, Db.exec_read]
  have hspawn : w.ctl.Left (w.ctl.spawn runId) [⟨runId, .jobsOf⟩] :=
    ⟨rfl, rfl, by rw [Ctl.spawn, h]; rfl⟩
  obtain ⟨c, hleft, hreach⟩ := reach_pass env ⟨w.db, w.ctl.spawn runId⟩ hspawn.passes
  exact ⟨c, hspawn.trans hleft, hstart.trans hreach⟩

theorem Db.hasRun_advanceRun {db : Db} {pool : Pool} {runId' : String} (h : db.HasRun runId') :
    (advanceRun env pool db runId).HasRun runId' := by
  obtain ⟨r, hr, rfl⟩ := h
  obtain ⟨jobs, heq, -⟩ := foldl_advanceJob env pool (db.snapshot runId) db _
    (db.nodup_jobsOf runId)
  have hadv : advanceJobs env pool db runId = { db with jobs := jobs } := heq
  rw [advanceRun, hadv]
  exact ⟨_, exec_runs_of_mem hr, Table.Update.key_row _ r⟩

/-- **The machine can do what a nudge computes**, when no pass is running. -/
theorem reach_nudge (env : Env) (w : World) (h : w.ctl.passes = []) :
    ∃ c : Ctl, w.ctl.Left c [] ∧
      (machine env).Reach Nudging w ⟨nudgeStalledRuns env w.ctl.pool w.db, c⟩ := by
  have key : ∀ (l : List String) (w : World), w.ctl.passes = [] → (∀ runId ∈ l, w.db.HasRun runId) →
      ∃ c : Ctl, w.ctl.Left c [] ∧
        (machine env).Reach Nudging w ⟨l.foldl (advanceRun env w.ctl.pool) w.db, c⟩ := by
    intro l
    induction l with
    | nil => exact fun w h _ => ⟨w.ctl, ⟨rfl, rfl, h⟩, Machine.Reach.refl⟩
    | cons runId l ih =>
      intro w h hruns
      obtain ⟨r, hr, hid⟩ := hruns runId List.mem_cons_self
      obtain ⟨c, hleft, hreach⟩ :=
        reach_advanceRun env w h (w.db.runs.find_eq_some.mpr ⟨hr, hid⟩)
      obtain ⟨c', hleft', hreach'⟩ :=
        ih ⟨advanceRun env w.ctl.pool w.db runId, c⟩ hleft.passes fun runId' hmem =>
          Db.hasRun_advanceRun (hruns runId' (List.mem_cons_of_mem _ hmem))
      rw [hleft.pool] at hreach'
      exact ⟨c', hleft.trans hleft', hreach.trans hreach'⟩
  refine key _ w h fun runId hmem => ?_
  obtain ⟨r, hr, hid, -⟩ := Db.mem_runsWithPendingJobs hmem
  exact ⟨r, hr, hid⟩

end Connect

/-! ## A job left behind -/

/-- Nobody is at work and nothing is on the queue. -/
def Ctl.Quiet (c : Ctl) : Prop :=
  c.passes = [] ∧ c.execs = [] ∧ c.watches = [] ∧ c.cancels = [] ∧ c.msgs = []

/-- A run of one job whose first pass died before it read anything. -/
def unscheduled : List Act :=
  [.submit "r" .plain .single, .passDies 0]

theorem nothingReady_build : ∃ w : World, w.status "r.build" = some .pending ∧
    NothingReady w.db (nudgeStalledRuns .plain w.ctl.pool w.db) := by
  have hrun : ((machine .plain).run (World.start 0 .single) unscheduled).map (fun w =>
      (w.status "r.build", w.db.runsWithPendingJobs nudgeBatch, w.db.runs.rows.map (·.id),
        w.db.jobs.rows.map fun j => j.plan.toOption.map (·.needs))) =
      some (some .pending, ["r"], ["r"], [some []]) := by decide
  obtain ⟨w, hw, heq⟩ := Option.map_eq_some_iff.mp hrun
  simp only [Prod.mk.injEq] at heq
  obtain ⟨hs, hsel, hruns, hneeds⟩ := heq
  refine ⟨w, hs, (nothingReady_iff .plain (Machine.reachable_of_run ⟨0, .single, rfl⟩ hw)).mpr ?_⟩
  intro r hr _ j hj hid _
  have hr : r.id = "r" := by
    have := List.mem_map_of_mem (f := fun r : Run => r.id) hr
    rwa [hruns, List.mem_singleton] at this
  rw [if_pos (by rw [hsel, hr]; exact List.mem_singleton_self _)]
  refine Or.inl fun plan hplan n hn => ?_
  have := List.mem_map_of_mem (f := fun j : JobRow => j.plan.toOption.map (·.needs)) hj
  rw [hneeds, List.mem_singleton, hplan] at this
  have hnil : plan.needs = [] := Option.some.inj this
  rw [hnil] at hn
  cases hn

/-- A job with an `if:`. -/
def JobPlan.withCondition (job : JobPlan) (condition : String) : JobPlan :=
  { job with condition := some condition }

/-- A failed build, the test it skips, and a cleanup behind the test that is to run `always()`. -/
def cleanupLeft : List Act :=
  .submit "r" .plain ⟨".ci/build.yml", none, [.plain "build" [], .plain "test" ["build"],
      (JobPlan.plain "cleanup" ["test"]).withCondition "always()"], by decide⟩ ::
    (schedule 3 1 ++ takeJob 0 ++ failJob ++ schedule 3 0)

/-- The run is over by then, and no nudge takes it again. -/
theorem cleanup_left_behind : ¬ ∀ (env : Env) (w : World),
    (machine env).Reachable Machine.anyStep w → w.ctl.Quiet →
      NothingReady w.db (nudgeStalledRuns env w.ctl.pool w.db) := by
  intro h
  have hrun : ((machine .plain).run (World.start 0 .single) cleanupLeft).map (fun w =>
      let db := nudgeStalledRuns .plain w.ctl.pool w.db
      (World.node ⟨db, w.ctl⟩ "r.cleanup", db.jobs.rows.all fun c => c.baseId ≠ "test" ||
        c.status.isTerminal, w.db.runs.rows.map fun r => (r.id, r.status))) =
      some (some ⟨.pending, "r", "cleanup", ["test"]⟩, true, [("r", .failure)]) := by decide
  have hquiet : ((machine .plain).run (World.start 0 .single) cleanupLeft).map (fun w =>
      (w.ctl.passes.length, w.ctl.execs.length, w.ctl.watches.length, w.ctl.cancels.length,
        w.ctl.msgs.length)) = some (0, 0, 0, 0, 0) := by decide
  obtain ⟨w, hw, heq⟩ := Option.map_eq_some_iff.mp hrun
  rw [hw, Option.map_some, Option.some.injEq] at hquiet
  simp only [Prod.mk.injEq, List.length_eq_zero_iff] at heq hquiet
  obtain ⟨hnode, hdone, hruns⟩ := heq
  obtain ⟨j, hj, plan, -, hplan, hn⟩ := World.node_spec hnode
  obtain ⟨hs, hr, -, hneeds⟩ := Node.mk.inj hn
  have hmem : ("r", RunStatus.failure) ∈ w.db.runs.rows.map fun r => (r.id, r.status) := by
    rw [hruns]
    exact List.mem_singleton_self _
  obtain ⟨r, hrun, hrr⟩ := List.mem_map.mp hmem
  obtain ⟨hid, hstatus⟩ := Prod.mk.inj hrr
  refine h .plain w (Machine.reachable_of_run ⟨0, .single, rfl⟩ hw) hquiet r hrun
    (by rw [hstatus]; decide) j hj (hr.symm.trans hid.symm) hs.symm fun plan' hplan' n hn c hc _ hb => ?_
  obtain rfl : plan = plan' := Except.ok.inj (hplan.symm.trans hplan')
  rw [← hneeds, List.mem_singleton] at hn
  simpa [hb, hn] using List.all_eq_true.mp hdone c hc

end HeyoCi
