import HeyoCi.Store.Statements
import Mathlib.Data.List.Sort
import Mathlib.Order.MinMax

/-!
# The reads of the store

* `Db.jobsOf`, `Db.isJobCancelled`, `Db.runsWithPendingJobs`, `Db.jobsWaitingLongerThan`: the
  `SELECT`s the dispatcher makes;
* `rollUp`: the status of a run, from those of its jobs;
* `worseOf`, `needsContext`: the result of a base id, the worst among its cells;
* **`rollUp_eq_cancelled`**, **`needsFailed_iff`**: what the two collapse to.
-/

namespace HeyoCi

/-- `ORDER BY created_at, job_key`. -/
def JobRow.Before (j j' : JobRow) : Prop :=
  j.createdAt < j'.createdAt ∨ (j.createdAt = j'.createdAt ∧ j.jobKey ≤ j'.jobKey)

instance : DecidableRel JobRow.Before := fun j j' =>
  inferInstanceAs (Decidable (j.createdAt < j'.createdAt ∨ (_ ∧ j.jobKey ≤ j'.jobKey)))

/-- `ORDER BY queued_at`. -/
def JobRow.QueuedBefore (j j' : JobRow) : Prop := j.queuedAt.getD 0 ≤ j'.queuedAt.getD 0

instance : DecidableRel JobRow.QueuedBefore := fun j j' =>
  inferInstanceAs (Decidable (j.queuedAt.getD 0 ≤ j'.queuedAt.getD 0))

namespace Db

variable (db : Db)

def getJob (jobId : String) : Option JobRow := db.jobs.find jobId

def getRun (runId : String) : Option Run := db.runs.find runId

def jobsOf (runId : String) : List JobRow :=
  (db.jobs.rows.filter fun j => j.runId = runId).insertionSort JobRow.Before

def isJobCancelled (jobId : String) : Bool :=
  (db.jobs.find jobId).map (·.status) = some .cancelled

/-- The runs a nudge looks at. -/
def stalled (r : Run) : Bool :=
  !r.status.isTerminal && db.jobs.rows.any fun j => j.runId = r.id && j.status = .pending

def runsWithPendingJobs (limit : Nat) : List String :=
  (((db.runs.rows.filter db.stalled).map (·.id)).insertionSort (· ≤ ·)).take limit

/-- A job that has sat on a queue for longer than `wait`, of a run that is not over. -/
def waiting (wait : Nat) (j : JobRow) : Bool :=
  j.status = .queued && (j.queuedAt.any fun t => t + wait < db.now) &&
    (db.runs.find j.runId).any fun r => !r.status.isTerminal

def jobsWaitingLongerThan (wait limit : Nat) : List JobRow :=
  ((db.jobs.rows.filter (db.waiting wait)).insertionSort JobRow.QueuedBefore).take limit

/-- `SELECT status FROM ci_job WHERE run_id = $1`. -/
def jobStatuses (runId : String) : List JobStatus :=
  (db.jobs.rows.filter fun j => j.runId = runId).map (·.status)

variable {db}

theorem mem_jobsOf {runId : String} {j : JobRow} :
    j ∈ db.jobsOf runId ↔ j ∈ db.jobs.rows ∧ j.runId = runId := by
  simp [jobsOf, List.mem_insertionSort]

theorem mem_jobStatuses {runId : String} {s : JobStatus} :
    s ∈ db.jobStatuses runId ↔ ∃ j ∈ db.jobs.rows, j.runId = runId ∧ j.status = s := by
  simp [jobStatuses, and_assoc]

theorem mem_jobsWaiting {wait limit : Nat} {j : JobRow}
    (h : j ∈ db.jobsWaitingLongerThan wait limit) :
    j ∈ db.jobs.rows ∧ db.waiting wait j = true := by
  have := (List.mem_insertionSort _).mp (List.mem_of_mem_take h)
  simpa using this

theorem mem_runsWithPendingJobs {limit : Nat} {runId : String}
    (h : runId ∈ db.runsWithPendingJobs limit) :
    ∃ r ∈ db.runs.rows, r.id = runId ∧ db.stalled r = true := by
  have := (List.mem_insertionSort _).mp (List.mem_of_mem_take h)
  obtain ⟨r, hr, rfl⟩ := List.mem_map.mp this
  obtain ⟨hr, hs⟩ := List.mem_filter.mp hr
  exact ⟨r, hr, rfl, hs⟩

theorem nodup_runsWithPendingJobs (limit : Nat) : (db.runsWithPendingJobs limit).Nodup := by
  have hmap : ((db.runs.rows.filter db.stalled).map (·.id)).Nodup :=
    (List.Sublist.map _ List.filter_sublist).nodup db.runs.nodup
  have hsort := (List.perm_insertionSort (· ≤ ·) _).nodup_iff.mpr hmap
  exact (List.take_sublist _ _).nodup hsort

end Db

/-! ## The status of a run -/

/-- The status `roll_up_run` derives. -/
def rollUp (statuses : List JobStatus) : RunStatus :=
  if statuses.isEmpty then .success
  else if statuses.any (· = .cancelled) then .cancelled
  else if statuses.any (· = .failure) then .failure
  else if statuses.all (fun s => s = .success ∨ s = .skipped) then .success
  else .running

theorem rollUp_eq_cancelled {l : List JobStatus} : rollUp l = .cancelled ↔ .cancelled ∈ l := by
  unfold rollUp
  split_ifs with h₁ h₂ h₃ h₄ <;> simp_all

/-- A run is over when its jobs are, or when one failed or was cancelled. -/
theorem rollUp_terminal {l : List JobStatus} : (rollUp l).isTerminal = true ↔
    (∀ s ∈ l, s.isTerminal = true) ∨ .cancelled ∈ l ∨ .failure ∈ l := by
  unfold rollUp
  split_ifs with h₁ h₂ h₃ h₄
  · simp_all [RunStatus.isTerminal]
  · simp_all [RunStatus.isTerminal]
  · simp_all [RunStatus.isTerminal]
  · have hall : ∀ s ∈ l, s.isTerminal = true := by
      intro s hs
      have := List.all_eq_true.mp h₄ s hs
      rcases (by simpa using this : s = .success ∨ s = .skipped) with rfl | rfl <;> rfl
    exact ⟨fun _ => Or.inl hall, fun _ => rfl⟩
  · refine ⟨fun h => absurd h (by decide), ?_⟩
    rintro (hall | hc | hf)
    · refine absurd (List.all_eq_true.mpr fun s hs => ?_) h₄
      have hc : s ≠ .cancelled := by rintro rfl; exact h₂ (by simpa using hs)
      have hf : s ≠ .failure := by rintro rfl; exact h₃ (by simpa using hs)
      have := hall s hs
      cases s <;> simp_all [JobStatus.isTerminal]
    · exact absurd (by simpa using hc) h₂
    · exact absurd (by simpa using hf) h₃

/-! ## The results of the needs -/

namespace JobStatus

/-- How bad a result is. -/
def rank : JobStatus → Nat
  | success => 0
  | skipped => 1
  | pending | queued | running => 2
  | cancelled => 3
  | failure => 4

end JobStatus

/-- The worse of two results, the first on a tie. -/
def worseOf (a b : JobStatus) : JobStatus := if b.rank > a.rank then b else a

theorem rank_worseOf (a b : JobStatus) : (worseOf a b).rank = max a.rank b.rank := by
  unfold worseOf
  split_ifs <;> omega

/-- The entry of a base id in the `needs` context. -/
structure NeedsEntry where
  result : JobStatus
  outputs : Json.Obj
  deriving Repr

/-- The `needs` context of a run, by base id. -/
abbrev NeedsContext := List (String × NeedsEntry)

namespace NeedsContext

/-- Add a cell to an entry: the worse result, and its outputs over those already there. -/
def addTo (e : NeedsEntry) (j : JobRow) : NeedsEntry where
  result := worseOf e.result j.status
  outputs := match j.outputs.asObject with
    | some src => Json.Obj.extend e.outputs src
    | none => e.outputs

/-- Add a cell to the entry of its base id, made when it is the first. -/
def add (j : JobRow) : NeedsContext → NeedsContext
  | [] => [(j.baseId, addTo ⟨.success, []⟩ j)]
  | (n, e) :: rest => if n = j.baseId then (n, addTo e j) :: rest else (n, e) :: add j rest

/-- What an `if:` sees of the context. -/
def toJson (needs : NeedsContext) : Json :=
  .obj (needs.foldl (fun o (n, e) =>
    Json.Obj.insert n (.obj [("outputs", .obj e.outputs), ("result", .str e.result.asStr)]) o) [])

/-- `needs.<n>.result`. -/
def result (needs : NeedsContext) (n : String) : Option JobStatus :=
  (needs.lookup n).map (·.result)

end NeedsContext

/-- The `needs` context of the jobs of a run. -/
def needsContext (jobs : List JobRow) : NeedsContext :=
  jobs.foldl (fun needs j => needs.add j) []

def Db.needsContext (db : Db) (runId : String) : NeedsContext :=
  HeyoCi.needsContext (db.jobsOf runId)

namespace NeedsContext

theorem result_add (needs : NeedsContext) (j : JobRow) (n : String) :
    (needs.add j).result n =
      if n = j.baseId then some (worseOf ((needs.result n).getD .success) j.status)
      else needs.result n := by
  induction needs with
  | nil =>
    by_cases hn : n = j.baseId
    · simp [add, result, addTo, hn]
    · have : (n == j.baseId) = false := by simpa using hn
      simp [add, result, List.lookup_cons, this, hn]
  | cons p rest ih =>
    obtain ⟨m, e⟩ := p
    by_cases hm : m = j.baseId
    · by_cases hn : n = m
      · subst hn
        simp [add, result, addTo, hm]
      · have : (n == j.baseId) = false := by simpa [← hm] using hn
        simp [add, result, List.lookup_cons, hm, this, hm ▸ hn]
    · by_cases hn : n = m
      · subst hn
        simp [add, result, hm]
      · have : (n == m) = false := by simpa using hn
        simp only [add, hm, if_false, result, List.lookup_cons, this] at ih ⊢
        exact ih

end NeedsContext

/-- The result of a need stops the job: it failed or was cancelled. -/
def needsFailed (needs : NeedsContext) (n : String) : Bool :=
  match needs.result n with
  | some .failure | some .cancelled => true
  | _ => false

theorem needsFailed_eq_rank (needs : NeedsContext) (n : String) :
    needsFailed needs n = true ↔ 3 ≤ ((needs.result n).getD .success).rank := by
  unfold needsFailed
  cases needs.result n with
  | none => simp [JobStatus.rank]
  | some s => cases s <;> simp [JobStatus.rank]

/-- The rank of a base id's result is the largest among its cells. -/
theorem le_rank_needsContext (jobs : List JobRow) (n : String) {b : Nat} (hb : 0 < b) :
    b ≤ (((needsContext jobs).result n).getD .success).rank ↔
      ∃ j ∈ jobs, j.baseId = n ∧ b ≤ j.status.rank := by
  have key : ∀ needs : NeedsContext,
      b ≤ (((jobs.foldl (fun needs j => needs.add j) needs).result n).getD .success).rank ↔
        b ≤ ((needs.result n).getD .success).rank ∨ ∃ j ∈ jobs, j.baseId = n ∧ b ≤ j.status.rank := by
    induction jobs with
    | nil => simp
    | cons j jobs ih =>
      intro needs
      rw [List.foldl_cons, ih, NeedsContext.result_add]
      by_cases hn : n = j.baseId
      · rw [if_pos hn, Option.getD_some, rank_worseOf, le_max_iff]
        simp only [List.mem_cons, exists_eq_or_imp, hn, true_and]
        tauto
      · rw [if_neg hn]
        simp only [List.mem_cons, exists_eq_or_imp, Ne.symm hn, false_and, false_or]
  have h₀ : ¬ b ≤ ((NeedsContext.result [] n).getD .success).rank := by
    simp [NeedsContext.result, JobStatus.rank]
    omega
  rw [needsContext, key, or_iff_right h₀]

/-- **A need has failed when one of its cells has**, or was cancelled. -/
theorem needsFailed_iff (jobs : List JobRow) (n : String) :
    needsFailed (needsContext jobs) n = true ↔
      ∃ j ∈ jobs, j.baseId = n ∧ (j.status = .failure ∨ j.status = .cancelled) := by
  rw [needsFailed_eq_rank, le_rank_needsContext jobs n (by omega)]
  have hrank : ∀ s : JobStatus, 3 ≤ s.rank ↔ s = .failure ∨ s = .cancelled := by
    intro s
    cases s <;> simp [JobStatus.rank]
  simp only [hrank]

end HeyoCi
