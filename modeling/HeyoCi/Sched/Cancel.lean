import HeyoCi.Sched.Final

/-!
# What a cancellation stops

`cancel_run` looks at the status of the run before it touches the jobs, and a roll-up writes the
status of the run without looking at it.

* `Db.cancelRun`: the two statements of `cancel_run`, one after the other;
* `Db.AllTerminal`, `Db.KeepsCancelled`: what a cancellation is to achieve, and what is to stay;
* `World.RollsUp`: a pass is about to write a run's status from the statuses it has read;
* **`cancel_iff`**: exactly when both hold.
-/

namespace HeyoCi

namespace Db

variable (db db' : Db) (runId : String)

/-- `cancel_run`: how many jobs it stopped, if the run was not over. -/
def cancelRun : Option Nat × Db :=
  let db' := db.exec (.cancelRun runId)
  if db.affectsRuns (.cancelRun runId)
  then (some (db'.jobs.rows.countP (Store.cancelJobs db'.now runId).hits),
    db'.exec (.cancelJobs runId))
  else (none, db')

/-- Every job of the run is finished. -/
def AllTerminal : Prop := ∀ j ∈ db.jobs.rows, j.runId = runId → j.status.isTerminal = true

/-- Every cancelled run is still cancelled. -/
def KeepsCancelled : Prop := ∀ r ∈ db.runs.rows, r.status = .cancelled →
  ∃ r' ∈ db'.runs.rows, r'.id = r.id ∧ r'.status = .cancelled

variable {db} {runId}

theorem affectsRuns_cancelRun {r : Run} (hr : r ∈ db.runs.rows) :
    db.affectsRuns (.cancelRun r.id) = !r.status.isTerminal := by
  rw [Bool.eq_iff_iff, affectsRuns, Table.affected_iff]
  constructor
  · rintro ⟨r', hr', hhits⟩
    have hhits : r'.id = r.id ∧ r'.status.isTerminal = false := by
      simpa [Stmt.onRuns, Store.cancelRun] using hhits
    obtain rfl := db.runs.eq_of_key hr' hr hhits.1
    simpa using hhits.2
  · intro ht
    exact ⟨r, hr, by simpa [Stmt.onRuns, Store.cancelRun] using ht⟩

/-- **On a run with an unfinished job, `cancel_run` finishes all of them exactly when the run itself
was not over.** -/
theorem allTerminal_cancelRun_iff {r : Run} (hr : r ∈ db.runs.rows) {j : JobRow}
    (hj : j ∈ db.jobs.rows) (hrun : j.runId = r.id) (hopen : j.status.isTerminal = false) :
    (db.cancelRun r.id).2.AllTerminal r.id ↔ r.status.isTerminal = false := by
  have hjobs : (db.exec (.cancelRun r.id)).jobs = db.jobs := db.jobs.update_none
  rw [cancelRun]
  simp only [affectsRuns_cancelRun hr]
  cases hs : r.status.isTerminal with
  | true =>
    refine ⟨fun h => ?_, fun h => by cases h⟩
    rw [← hjobs] at hj
    rw [h j hj hrun] at hopen
    cases hopen
  | false =>
    refine ⟨fun _ => rfl, fun _ j' hj' hrun' => ?_⟩
    obtain ⟨j₀, -, rfl⟩ := (Table.mem_update _ _).mp hj'
    unfold Table.Update.row at hrun' ⊢
    split_ifs with hhits
    · rfl
    · rw [if_neg hhits] at hrun'
      simpa [Stmt.onJobs, Store.cancelJobs, hrun'] using hhits

end Db

/-- The machine takes the two statements of `cancel_run` one after the other. -/
theorem run_cancelRun (env : Env) (w : World) (runId : String) :
    (machine env).run w (.cancelRun runId ::
      if w.db.affectsRuns (.cancelRun runId) then [.cancelJobs w.ctl.cancels.length] else []) =
      some ⟨(w.db.cancelRun runId).2, w.ctl⟩ := by
  obtain ⟨db, pool, passes, execs, watches, cancels, msgs, seq, published⟩ := w
  simp only [Db.cancelRun]
  split_ifs with h
  · simp [Machine.run, machine, step, act, h, Actors.put, List.eraseIdx_append_of_length_le]
  · simp [Machine.run, machine, step, act, h]

/-! ## Roll-ups -/

/-- A pass is about to write a run's status from the statuses it has read. -/
def World.RollsUp (w : World) (a : Act) (runId : String) (statuses : List JobStatus) : Prop :=
  ∃ i r, a = .pass i r ∧ r ≠ .fail ∧ w.ctl.passes[i]? = some ⟨runId, .setRunStatus statuses⟩

theorem World.RollsUp.stmt {w : World} {a : Act} {runId : String} {statuses : List JobStatus}
    (h : w.RollsUp a runId statuses) (env : Env) :
    stmtOf env w a = some (.setRunStatus runId (rollUp statuses) none) := by
  obtain ⟨i, r, rfl, hr, hp⟩ := h
  simp only [stmtOf, act, hp, Option.bind_some]
  cases r with
  | fail => exact absurd rfl hr
  | ok | duplicate | unacked => rfl

/-- Only a roll-up sets the status of a run with `set_run_status`. -/
theorem World.Moves.rollsUp {env : Env} {w : World} {a : Act} {st : Stmt} {c : Ctl}
    (h : World.Moves env w a st c) {runId : String} {s : RunStatus} {e : Option String}
    (hst : st = .setRunStatus runId s e) :
    ∃ statuses, w.RollsUp a runId statuses ∧ s = rollUp statuses := by
  cases h with
  | pass i p hi r m hm hr =>
    obtain ⟨runId', pc⟩ := p
    cases hm with
    | setRunStatus statuses hpc =>
      cases hpc
      cases hst
      refine ⟨statuses, ⟨i, r, rfl, ?_, hi⟩, rfl⟩
      rintro rfl
      cases hr
    | _ => cases hst
  | exec i x hi o m hm ho => cases hm <;> cases hst
  | _ => cases hst

/-- A roll-up that meets a cancelled run has read a cancelled job. -/
def World.SeesCancelled (w : World) (a : Act) : Prop := ∀ runId statuses, w.RollsUp a runId statuses →
  (∃ r ∈ w.db.runs.rows, r.id = runId ∧ r.status = .cancelled) → .cancelled ∈ statuses

theorem keepsCancelled_iff {env : Env} {w : World} {a : Act} {st : Stmt} {c : Ctl}
    (h : World.Moves env w a st c) (hst : stmtOf env w a = some st) :
    w.db.KeepsCancelled (w.db.exec st) ↔ w.SeesCancelled a := by
  constructor
  · rintro hk runId statuses hroll ⟨r, hr, rfl, hs⟩
    obtain rfl : st = .setRunStatus r.id (rollUp statuses) none :=
      Option.some.inj (hst.symm.trans (hroll.stmt env))
    obtain ⟨r', hr', hid, hs'⟩ := hk r hr hs
    have hrow : ((Stmt.setRunStatus r.id (rollUp statuses) none).onRuns w.db.now).row r ∈
        (w.db.exec (.setRunStatus r.id (rollUp statuses) none)).runs.rows := Db.exec_runs_of_mem hr
    obtain rfl := (w.db.exec _).runs.eq_of_key hr' hrow (hid.trans (Table.Update.key_row _ r).symm)
    rw [Table.Update.row_of_hits (by simp [Stmt.onRuns, Store.setRunStatus])] at hs'
    exact rollUp_eq_cancelled.mp hs'
  · intro hsees r hr hs
    refine ⟨_, Db.exec_runs_of_mem hr, Table.Update.key_row _ r, ?_⟩
    have hm := st.runMoves w.db.now r
    generalize ((st.onRuns w.db.now).row r).status = s at hm ⊢
    cases hm with
    | keep => exact hs
    | set s e =>
      obtain ⟨statuses, hroll, rfl⟩ := h.rollsUp rfl
      exact rollUp_eq_cancelled.mpr (hsees _ _ hroll ⟨r, hr, rfl, hs⟩)
    | cancel => rfl

/-- **Cancelling finishes every job exactly when the run was not over, and a run keeps every
cancelled run cancelled exactly when each roll-up that meets one has read a cancelled job.** -/
theorem cancel_iff (env : Env) :
    (∀ w, (machine env).Reachable Machine.anyStep w → ∀ r ∈ w.db.runs.rows,
      (∃ j ∈ w.db.jobs.rows, j.runId = r.id ∧ j.status.isTerminal = false) →
        ((w.db.cancelRun r.id).2.AllTerminal r.id ↔ r.status.isTerminal = false)) ∧
    ∀ now pool as,
      (machine env).Throughout (fun w _ w' => w.db.KeepsCancelled w'.db) (World.start now pool) as ↔
        (machine env).Throughout (fun w a _ => w.SeesCancelled a) (World.start now pool) as := by
  constructor
  · rintro w - r hr ⟨j, hj, hrun, hopen⟩
    exact Db.allTerminal_cancelRun_iff hr hj hrun hopen
  · intro now pool as
    refine Machine.Throughout.congr (Machine.Reachable.init ⟨now, pool, rfl⟩) fun w a w' _ h => ?_
    obtain ⟨st, c, hst, hm, rfl⟩ := step_cases h
    exact keepsCancelled_iff hm hst

/-! ## A cancelled run that runs -/

/-- Two jobs, of which the first fails while the other is queued. -/
def failedEarly : List Act :=
  .submit "r" .plain ⟨".ci/build.yml", none, [.plain "build" [], .plain "lint" []], by decide⟩ ::
    (schedule 2 2 ++ takeJob 0 ++ failJob ++ schedule 2 0)

/-- One job, cancelled after the first pass has read its status and before it writes the run's. -/
def cancelledInRollUp : List Act :=
  .submit "r" .plain .single ::
    (List.replicate 7 (.pass 0 .ok) ++ [.cancelRun "r", .cancelJobs 0])

/-- The status of a run. -/
def World.runStatus (w : World) (runId : String) : Option RunStatus :=
  (w.db.runs.find runId).map (·.status)

/-- Cancelling a failed run leaves its queued job, and a roll-up revives a cancelled run. -/
theorem cancel_undone :
    (¬ ∀ (env : Env) (w : World), (machine env).Reachable Machine.anyStep w → ∀ r ∈ w.db.runs.rows,
      (∃ j ∈ w.db.jobs.rows, j.runId = r.id ∧ j.status.isTerminal = false) →
        (w.db.cancelRun r.id).2.AllTerminal r.id) ∧
    ¬ ∀ (env : Env) (now : Nat) (pool : Pool) (as : List Act),
      (machine env).Throughout (fun w _ w' => w.db.KeepsCancelled w'.db) (World.start now pool)
        as := by
  constructor
  · intro h
    have hrun : ((machine .plain).run (World.start 0 .single) failedEarly).map (fun w =>
        (w.db.runs.rows.map (·.id), w.node "r.lint", World.node ⟨(w.db.cancelRun "r").2, w.ctl⟩
          "r.lint")) =
        some (["r"], some ⟨.queued, "r", "lint", []⟩, some ⟨.queued, "r", "lint", []⟩) := by decide
    obtain ⟨w, hw, heq⟩ := Option.map_eq_some_iff.mp hrun
    simp only [Prod.mk.injEq] at heq
    obtain ⟨hruns, hnode, hafter⟩ := heq
    obtain ⟨r, hr, hid⟩ := List.mem_map.mp (by rw [hruns]; exact List.mem_singleton_self "r")
    obtain ⟨j, hj, plan, -, -, hn⟩ := World.node_spec hnode
    obtain ⟨hs, hrun, -, -⟩ := Node.mk.inj hn
    obtain ⟨j', hj', plan', -, -, hn'⟩ := World.node_spec hafter
    obtain ⟨hs', hrun', -, -⟩ := Node.mk.inj hn'
    have := h .plain w (Machine.reachable_of_run ⟨0, .single, rfl⟩ hw) r hr
      ⟨j, hj, hrun.symm.trans hid.symm, by rw [← hs]; rfl⟩ j' (by rw [hid]; exact hj')
      (hrun'.symm.trans hid.symm)
    rw [← hs'] at this
    cases this
  · intro h
    have hbefore : ((machine .plain).run (World.start 0 .single) cancelledInRollUp).map
        (·.runStatus "r") = some (some .cancelled) := by decide
    have hafter : ((machine .plain).run (World.start 0 .single)
        (cancelledInRollUp ++ [.pass 0 .ok])).map (·.runStatus "r") = some (some .running) := by decide
    obtain ⟨w, hw, hc⟩ := Option.map_eq_some_iff.mp hbefore
    obtain ⟨w', hw', hs⟩ := Option.map_eq_some_iff.mp hafter
    rw [Machine.run_concat, hw, Option.bind_some] at hw'
    refine Machine.not_throughout hw hw' (fun hk => ?_) (h .plain 0 .single _)
    obtain ⟨r, hr, hrs⟩ := Option.map_eq_some_iff.mp hc
    obtain ⟨r', hr', hid, hrs'⟩ := hk r (Table.mem_of_find hr) hrs
    have hfind : w'.db.runs.find "r" = some r' :=
      w'.db.runs.find_eq_some.mpr ⟨hr', hid.trans (Table.key_of_find hr)⟩
    rw [World.runStatus, hfind, Option.map_some, hrs'] at hs
    cases hs

end HeyoCi
