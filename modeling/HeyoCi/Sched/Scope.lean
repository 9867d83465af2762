import HeyoCi.Sched.Cancel
import HeyoCi.Sched.Snapshot

/-!
# The run a step is about

* `Db.rolled`: the roll-up of the stored statuses of a run;
* `Stmt.Outside`: the statement changes no status of a run and of its jobs;
* `outside_or_open`: a statement that finishes nothing is outside, or leaves a job unfinished;
* **`Pass.Moves.outside`**, **`Exec.Moves.outside`**: an actor stays outside the runs that are not
  its own.
-/

namespace HeyoCi

/-- The roll-up of the stored statuses of a run. -/
def Db.rolled (db : Db) (runId : String) : RunStatus := rollUp (db.jobStatuses runId)

instance (db : Db) (runId : String) : Decidable (db.AllTerminal runId) :=
  inferInstanceAs (Decidable (∀ j ∈ db.jobs.rows, j.runId = runId → j.status.isTerminal = true))

/-- Only the statuses that occur matter for a roll-up. -/
theorem rollUp_congr {l l' : List JobStatus} (h : ∀ s, s ∈ l ↔ s ∈ l') : rollUp l = rollUp l' := by
  have hempty : l.isEmpty = l'.isEmpty := by
    rw [Bool.eq_iff_iff, List.isEmpty_iff, List.isEmpty_iff, List.eq_nil_iff_forall_not_mem,
      List.eq_nil_iff_forall_not_mem]
    simp only [h]
  have hany : ∀ p : JobStatus → Bool, l.any p = l'.any p := fun p => by
    rw [Bool.eq_iff_iff, List.any_eq_true, List.any_eq_true]
    simp only [h]
  have hall : ∀ p : JobStatus → Bool, l.all p = l'.all p := fun p => by
    rw [Bool.eq_iff_iff, List.all_eq_true, List.all_eq_true]
    simp only [h]
  unfold rollUp
  rw [hempty, hany, hany, hall]

theorem Db.rolled_terminal {db : Db} {runId : String} (h : db.AllTerminal runId) :
    (db.rolled runId).isTerminal = true := by
  refine rollUp_terminal.mpr (Or.inl fun s hs => ?_)
  obtain ⟨j, hj, hrun, rfl⟩ := Db.mem_jobStatuses.mp hs
  exact h j hj hrun

theorem Db.rolled_of_cancelled {db : Db} {j : JobRow} (hj : j ∈ db.jobs.rows)
    (hs : j.status = .cancelled) : db.rolled j.runId = .cancelled :=
  rollUp_eq_cancelled.mpr (Db.mem_jobStatuses.mpr ⟨j, hj, rfl, hs⟩)

namespace Stmt

/-- The job a statement names. -/
def target : Stmt → Option String
  | claimJob jobId .. | startJob jobId .. | noteJobError jobId _ | queueJob jobId | unqueueJob jobId
  | setJobStatus jobId .. | setJobOutputs jobId _ => some jobId
  | _ => none

/-- The statement may write a run, or make a job finished. -/
def finishes : Stmt → Bool
  | createRun .. | setRunStatus .. | cancelRun _ | cancelJobs _ | setJobStatus .. => true
  | _ => false

/-- The statement changes no status of the run and of its jobs. -/
structure Outside (st : Stmt) (db : Db) (runId : String) : Prop where
  jobs : ∀ j ∈ db.jobs.rows, j.runId = runId → ((st.onJobs db.now).row j).status = j.status
  runs : ∀ r ∈ db.runs.rows, r.id = runId → ((st.onRuns db.now).row r).status = r.status
  fresh : ∀ req plan, st ≠ .createRun runId req plan

variable {st : Stmt} {db : Db} {runId : String}

theorem outside_read : read.Outside db runId :=
  ⟨fun _ _ _ => rfl, fun _ _ _ => rfl, fun _ _ h => by cases h⟩

theorem onRuns_of_target {now : Nat} {jobId : String} (h : st.target = some jobId) :
    st.onRuns now = .none := by
  cases st <;> first | rfl | cases h

/-- A statement about a job stays outside the other runs. -/
theorem outside_of_target {runId' jobId : String} (h : st.target = some jobId)
    (hj : db.HasJob runId' jobId) (hne : runId' ≠ runId) : st.Outside db runId := by
  refine ⟨fun j hmem hrun => ?_, fun r _ _ => ?_, fun req plan hst => ?_⟩
  · obtain ⟨j₀, hj₀, hid, hrun₀⟩ := hj
    rw [Table.Update.row_of_not_hits]
    by_contra hhits
    have hjid : j.id = jobId := by
      cases st <;> cases h <;> simp_all [onJobs, Store.claimJob, Store.startJob, Store.noteJobError,
        Store.queueJob, Store.unqueueJob, Store.setJobStatus, Store.setJobOutputs]
    obtain rfl := db.jobs.eq_of_key hj₀ hmem (hid.trans hjid.symm)
    exact hne (hrun₀.symm.trans hrun)
  · rw [onRuns_of_target h]
    rfl
  · rw [hst] at h
    cases h

/-- A statement that finishes nothing is outside a run, or leaves a job of it unfinished. -/
theorem outside_or_open (h : st.finishes = false) :
    st.Outside db runId ∨ ¬ (db.exec st).AllTerminal runId := by
  have hruns : st.onRuns db.now = .none := by
    cases st <;> first | rfl | cases h
  by_cases hj : ∀ j ∈ db.jobs.rows, j.runId = runId → ((st.onJobs db.now).row j).status = j.status
  · refine Or.inl ⟨hj, fun r _ _ => ?_, ?_⟩
    · rw [hruns]
      rfl
    · rintro req plan rfl
      cases h
  · right
    intro hall
    push Not at hj
    obtain ⟨j, hj, hrun, hs⟩ := hj
    have hterm := hall _ (Db.mem_exec_jobs.mpr (Or.inl ⟨j, hj, rfl⟩))
      ((st.same db.now j).runId.trans hrun)
    have hm := st.moves db.now j
    generalize ((st.onJobs db.now).row j).status = s at hm hs hterm
    cases hm with
    | keep => exact hs rfl
    | queue | unqueue | claim | start => cases hterm
    | cancel | set => cases h

end Stmt

namespace Db

variable {st : Stmt} {db : Db} {runId : String}

/-- The old rows of a run a statement is outside of. -/
theorem mem_exec_outside (h : st.Outside db runId) {j' : JobRow} (hj' : j' ∈ (db.exec st).jobs.rows)
    (hrun : j'.runId = runId) : ∃ j ∈ db.jobs.rows, j.runId = runId ∧ j.status = j'.status := by
  rcases mem_exec_jobs.mp hj' with ⟨j, hj, rfl⟩ | hnew
  · rw [(st.same db.now j).runId] at hrun
    exact ⟨j, hj, hrun, (h.jobs j hj hrun).symm⟩
  · obtain ⟨-, -, -, req, plan, hst, -⟩ := inserted_spec hnew
    rw [hrun] at hst
    exact absurd hst (h.fresh req plan)

theorem mem_outside_exec (h : st.Outside db runId) {j : JobRow} (hj : j ∈ db.jobs.rows)
    (hrun : j.runId = runId) :
    ∃ j' ∈ (db.exec st).jobs.rows, j'.runId = runId ∧ j'.status = j.status :=
  ⟨_, mem_exec_jobs.mpr (Or.inl ⟨j, hj, rfl⟩), (st.same db.now j).runId.trans hrun, h.jobs j hj hrun⟩

theorem rolled_outside (h : st.Outside db runId) : (db.exec st).rolled runId = db.rolled runId := by
  refine rollUp_congr fun s => ?_
  rw [mem_jobStatuses, mem_jobStatuses]
  constructor
  · rintro ⟨j', hj', hrun, rfl⟩
    exact mem_exec_outside h hj' hrun
  · rintro ⟨j, hj, hrun, rfl⟩
    exact mem_outside_exec h hj hrun

theorem allTerminal_outside (h : st.Outside db runId) :
    (db.exec st).AllTerminal runId ↔ db.AllTerminal runId := by
  constructor
  · intro hall j hj hrun
    obtain ⟨j', hj', hrun', hs⟩ := mem_outside_exec h hj hrun
    rw [← hs]
    exact hall j' hj' hrun'
  · intro hall j' hj' hrun
    obtain ⟨j, hj, hrun', hs⟩ := mem_exec_outside h hj' hrun
    rw [← hs]
    exact hall j hj hrun'

end Db

section Actors

variable {K : StatusRel} {Good : Db → String → Prop} {env : Env} {pool : Pool} {db : Db}
  {runId : String}

/-- **A pass stays outside the other runs.** -/
theorem Pass.Moves.outside {p : Pass} {m : PassMove} (hm : p.Moves env pool db m)
    (hp : p.Ok K Good db) (hne : p.runId ≠ runId) : m.stmt.Outside db runId := by
  cases hm with
  | finish snap j todo hpc | queue snap j todo hpc | lost snap j todo hpc =>
    rw [Pass.Ok, hpc] at hp
    exact Stmt.outside_of_target rfl (hp.hasJob List.mem_cons_self) hne
  | unqueue snap j todo hpc =>
    rw [Pass.Ok, hpc] at hp
    exact Stmt.outside_of_target rfl hp.2 hne
  | setRunStatus statuses hpc =>
    refine ⟨fun _ _ _ => rfl, fun r _ hr => ?_, fun _ _ h => by cases h⟩
    rw [Table.Update.row_of_not_hits]
    simpa [Stmt.onRuns, Store.setRunStatus, hr] using Ne.symm hne
  | _ => exact Stmt.outside_read

/-- **An execution stays outside the other runs.** -/
theorem Exec.Moves.outside {x : Exec} {m : ExecMove} (hm : x.Moves db m) (hx : x.body.Ok Good db)
    (hne : x.body.runId ≠ runId) : m.stmt.Outside db runId := by
  cases hm with
  | giveUp | note | claimed | claimLost | started | startLost | outputs | finish =>
    exact Stmt.outside_of_target rfl hx.job hne
  | _ => exact Stmt.outside_read

end Actors

end HeyoCi
