import HeyoCi.Lib.Batches
import Mathlib.Algebra.Order.Ring.Nat
import Mathlib.Data.List.Nodup

/-!
# Passes of the log sweeper

Each hour a sweeper lists old runs with logs, the oldest ones first, removes the directory of each and
forgets where the logs were. What counts as old moves on from pass to pass, and all the while younger runs
come and write.

* `LogDb`: the rows; `LogDb.candidates`, `LogDb.forget`: `runs_with_logs_before`, `forget_logs_of`;
* `LogDb.sweep`: a pass over runs that are listed; `LogDb.candidates_sweep`: what is listed after it;
* `SweepPass`, `Between`, `Sweeps`: one pass after the other, and what may happen between two;
* **`sweeps_settle`**: what they leave in the end, with directories that cannot be removed.
-/

namespace HeyoCi

/-! ## The rows -/

structure LoggedJob where
  id : String
  runId : String
  key : String
  deriving Repr, DecidableEq

structure LoggedStep where
  id : String
  jobId : String
  idx : Int
  logPath : Option (List String)
  logBytes : Nat
  deriving Repr, DecidableEq

/-- The rows of runs, jobs and steps that a sweep reads; a run is here with when it was created. -/
structure LogDb where
  runs : List (String × Int)
  jobs : List LoggedJob
  steps : List LoggedStep
  runKeys : (runs.map Prod.fst).Nodup
  jobKeys : (jobs.map (·.id)).Nodup
  stepKeys : (steps.map (·.id)).Nodup

namespace LogDb

variable (db : LogDb)

/-- A step is one of a job of a run. -/
def inRun (runId : String) (s : LoggedStep) : Bool :=
  db.jobs.any fun j => j.id = s.jobId && j.runId = runId

/-- A log of the run is recorded. -/
def hasLogs (runId : String) : Bool := db.steps.any fun s => s.logPath.isSome && db.inRun runId s

/-- The runs that `runs_with_logs_before` takes a batch of. -/
def candidates (cutoff : Int) : List (String × Int) :=
  db.runs.filter fun r => decide (r.2 < cutoff) && db.hasLogs r.1

/-- `runs_with_logs_before`: the oldest ones, so many of them; the order of runs of one moment is
open. -/
def Listing (cutoff : Int) (limit : Nat) (listed : List (String × Int)) : Prop :=
  Batches.Batch Prod.snd limit (db.candidates cutoff) listed

instance (cutoff : Int) (limit : Nat) (listed : List (String × Int)) :
    Decidable (db.Listing cutoff limit listed) := inferInstanceAs (Decidable (Batches.Batch _ _ _ _))

def forgetStep (runId : String) (s : LoggedStep) : LoggedStep :=
  if s.logPath.isSome && db.inRun runId s then { s with logPath := none, logBytes := 0 } else s

/-- What forgetting does not touch. -/
theorem forgetStep_keeps (runId : String) (s : LoggedStep) : (db.forgetStep runId s).id = s.id ∧
    (db.forgetStep runId s).jobId = s.jobId ∧ (db.forgetStep runId s).idx = s.idx := by
  unfold forgetStep
  split_ifs <;> exact ⟨rfl, rfl, rfl⟩

/-- `forget_logs_of`. -/
def forget (runId : String) : LogDb where
  runs := db.runs
  jobs := db.jobs
  steps := db.steps.map (db.forgetStep runId)
  runKeys := db.runKeys
  jobKeys := db.jobKeys
  stepKeys := by
    have hids : (db.steps.map (db.forgetStep runId)).map (·.id) = db.steps.map (·.id) := by
      rw [List.map_map]
      exact List.map_congr_left fun s _ => (db.forgetStep_keeps runId s).1
    rw [hids]
    exact db.stepKeys

/-- A pass over runs that are listed, some of which have a directory that cannot be removed. -/
def sweep (removable : String → Bool) (ids : List String) : LogDb :=
  ids.foldl (fun db id => if removable id then db.forget id else db) db

variable {db}

theorem inRun_forget (runId other : String) (s : LoggedStep) :
    (db.forget runId).inRun other (db.forgetStep runId s) = db.inRun other s := by
  rw [inRun, inRun, (db.forgetStep_keeps runId s).2.1]
  rfl

/-- A step belongs to one run. -/
theorem inRun_unique {runId other : String} {s : LoggedStep} (h : db.inRun runId s = true)
    (h' : db.inRun other s = true) : runId = other := by
  simp only [inRun, List.any_eq_true, Bool.and_eq_true, decide_eq_true_eq] at h h'
  obtain ⟨j, hj, hid, rfl⟩ := h
  obtain ⟨j', hj', hid', rfl⟩ := h'
  rw [List.inj_on_of_nodup_map db.jobKeys hj hj' (hid.trans hid'.symm)]

theorem hasLogs_forget (runId other : String) :
    (db.forget runId).hasLogs other = (db.hasLogs other && other != runId) := by
  have hstep : ∀ s, ((db.forgetStep runId s).logPath.isSome &&
      (db.forget runId).inRun other (db.forgetStep runId s)) =
        (s.logPath.isSome && db.inRun other s && other != runId) := by
    intro s
    rw [inRun_forget, forgetStep]
    by_cases hs : (s.logPath.isSome && db.inRun runId s) = true
    · rw [if_pos hs]
      rw [Bool.and_eq_true] at hs
      by_cases hother : db.inRun other s = true
      · rw [inRun_unique hs.2 hother]
        simp
      · simp [Bool.eq_false_iff.mpr hother]
    · rw [if_neg hs]
      by_cases heq : other = runId
      · rw [heq, Bool.eq_false_iff.mpr hs]
        rfl
      · simp [heq]
  have hany : ∀ (p : LoggedStep → Bool) (b : Bool) (l : List LoggedStep),
      (l.any fun s => p s && b) = (l.any p && b) := by
    intro p b l
    cases b <;> simp
  rw [hasLogs, hasLogs, ← hany]
  change ((db.steps.map (db.forgetStep runId)).any _) = _
  rw [List.any_map]
  congr 1
  funext s
  exact hstep s

/-- **Forgetting the logs of a run takes it off the list**, and no other one. -/
theorem candidates_forget (runId : String) (cutoff : Int) : (db.forget runId).candidates cutoff =
    (db.candidates cutoff).filter fun r => r.1 != runId := by
  rw [candidates, candidates, List.filter_filter]
  refine List.filter_congr fun r _ => ?_
  rw [hasLogs_forget]
  cases decide (r.2 < cutoff) <;> cases db.hasLogs r.1 <;> cases r.1 != runId <;> rfl

theorem candidates_sweep (removable : String → Bool) (ids : List String) (cutoff : Int) :
    (db.sweep removable ids).candidates cutoff =
      (db.candidates cutoff).filter fun r => !(ids.contains r.1 && removable r.1) := by
  induction ids generalizing db with
  | nil => exact (List.filter_eq_self.mpr fun _ _ => rfl).symm
  | cons id ids ih =>
    change LogDb.candidates (LogDb.sweep (if removable id then db.forget id else db) removable ids)
      cutoff = _
    rw [ih]
    by_cases hid : removable id = true
    · rw [if_pos hid, candidates_forget, List.filter_filter]
      refine List.filter_congr fun r _ => ?_
      by_cases heq : r.1 = id
      · simp [heq, hid]
      · simp [heq]
    · rw [if_neg hid]
      refine List.filter_congr fun r _ => ?_
      by_cases heq : r.1 = id
      · simp [heq, Bool.eq_false_iff.mpr hid]
      · simp [heq]

theorem nodup_candidates (cutoff : Int) : (db.candidates cutoff).Nodup :=
  (List.Nodup.of_map _ db.runKeys).filter _

end LogDb

/-! ## One pass after the other -/

/-- The steps of other runs than those on the list are what they were. -/
theorem LogDb.mem_sweep {db : LogDb} {removable : String → Bool} {ids : List String} {s : LoggedStep}
    (hs : s ∈ db.steps) (hnot : ∀ id ∈ ids, db.inRun id s = false) :
    s ∈ (db.sweep removable ids).steps := by
  induction ids generalizing db with
  | nil => exact hs
  | cons id ids ih =>
    have hid := hnot id List.mem_cons_self
    have hrest : ∀ id ∈ ids, db.inRun id s = false := fun id hmem =>
      hnot id (List.mem_cons_of_mem _ hmem)
    change s ∈ (LogDb.sweep (if removable id then db.forget id else db) removable ids).steps
    split_ifs
    · have hsame : db.forgetStep id s = s := by rw [forgetStep, hid, Bool.and_false]; rfl
      exact ih (List.mem_map.mpr ⟨s, hs, hsame⟩) hrest
    · exact ih hs hrest

theorem LogDb.rows_sweep (db : LogDb) (removable : String → Bool) (ids : List String) :
    (db.sweep removable ids).runs = db.runs ∧ (db.sweep removable ids).jobs = db.jobs ∧
      (db.sweep removable ids).steps.map (·.id) = db.steps.map (·.id) := by
  induction ids generalizing db with
  | nil => exact ⟨rfl, rfl, rfl⟩
  | cons id ids ih =>
    obtain ⟨hruns, hjobs, hsteps⟩ := ih (if removable id then db.forget id else db)
    refine ⟨hruns.trans ?_, hjobs.trans ?_, hsteps.trans ?_⟩
    · split_ifs <;> rfl
    · split_ifs <;> rfl
    · split_ifs
      · change (db.steps.map (db.forgetStep id)).map (·.id) = _
        rw [List.map_map]
        exact List.map_congr_left fun s _ => (db.forgetStep_keeps id s).1
      · rfl

theorem LogDb.sweep_of_stuck (db : LogDb) {removable : String → Bool} {ids : List String}
    (h : ∀ id ∈ ids, removable id = false) : db.sweep removable ids = db := by
  induction ids with
  | nil => rfl
  | cons id ids ih =>
    change LogDb.sweep (if removable id then db.forget id else db) removable ids = db
    rw [h id List.mem_cons_self]
    exact ih fun id' hid' => h id' (List.mem_cons_of_mem _ hid')

/-- A pass: when it counts a run as old, the rows that it finds, and the runs that it lists. -/
structure SweepPass where
  cutoff : Int
  db : LogDb
  listed : List (String × Int)

/-- What it leaves. -/
def SweepPass.after (p : SweepPass) (removable : String → Bool) : LogDb :=
  p.db.sweep removable (p.listed.map Prod.fst)

/-- What happens between two passes: runs come, and jobs write, but not to what was old. -/
structure Between (cutoff : Int) (db db' : LogDb) : Prop where
  runs : (db'.runs.filter fun r => r.2 < cutoff) = db.runs.filter fun r => r.2 < cutoff
  steps : ∀ r ∈ db.runs, r.2 < cutoff → ∀ s,
    (s ∈ db'.steps ∧ db'.inRun r.1 s = true) ↔ (s ∈ db.steps ∧ db.inRun r.1 s = true)

/-- Passes of a sweeper, one after the other, each over what it lists then. -/
structure Sweeps (removable : String → Bool) (limit : Nat) (ps : List SweepPass) : Prop where
  listed : ∀ p ∈ ps, p.db.Listing p.cutoff limit p.listed
  between : ps.IsChain fun p q =>
    p.cutoff ≤ q.cutoff ∧ Between p.cutoff (p.after removable) q.db

section Passes

variable {removable : String → Bool} {limit : Nat} {p q : SweepPass} {ps : List SweepPass}
  {cutoff : Int} {db db' : LogDb}

theorem mem_candidates {r : String × Int} :
    r ∈ db.candidates cutoff ↔ r ∈ db.runs ∧ r.2 < cutoff ∧ db.hasLogs r.1 = true := by
  rw [LogDb.candidates, List.mem_filter, Bool.and_eq_true, decide_eq_true_eq]

/-- The candidates of an earlier cutoff are the old ones of a later cutoff. -/
theorem candidates_below {cutoff' : Int} (h : cutoff ≤ cutoff') : db.candidates cutoff =
    (db.candidates cutoff').filter fun r => r.2 < cutoff := by
  rw [LogDb.candidates, LogDb.candidates, List.filter_filter]
  refine List.filter_congr fun r _ => ?_
  by_cases hr : r.2 < cutoff
  · have hr' : r.2 < cutoff' := lt_of_lt_of_le hr h
    rw [decide_eq_true hr, decide_eq_true hr', Bool.true_and, Bool.true_and]
  · rw [decide_eq_false hr, Bool.false_and, Bool.false_and]

theorem hasLogs_between (h : Between cutoff db db') {r : String × Int} (hr : r ∈ db.runs)
    (hold : r.2 < cutoff) : db'.hasLogs r.1 = db.hasLogs r.1 := by
  rw [Bool.eq_iff_iff, LogDb.hasLogs, LogDb.hasLogs, List.any_eq_true, List.any_eq_true]
  refine exists_congr fun s => ?_
  rw [Bool.and_eq_true, Bool.and_eq_true]
  have hiff := h.steps r hr hold s
  tauto

/-- What is old is listed as before. -/
theorem candidates_between (h : Between cutoff db db') : db'.candidates cutoff = db.candidates cutoff := by
  have hsplit : ∀ db : LogDb, db.candidates cutoff =
      (db.runs.filter fun r => r.2 < cutoff).filter fun r => db.hasLogs r.1 := by
    intro db
    rw [LogDb.candidates, List.filter_filter]
    refine List.filter_congr fun r _ => ?_
    rw [Bool.and_comm]
  rw [hsplit db', hsplit db, h.runs]
  refine List.filter_congr fun r hr => ?_
  rw [List.mem_filter, decide_eq_true_eq] at hr
  exact hasLogs_between h hr.1 hr.2

/-- The candidates that a pass leaves, of any cutoff. -/
theorem candidates_after (hlisted : p.db.Listing p.cutoff limit p.listed) (cutoff : Int) :
    (p.after removable).candidates cutoff = Batches.remaining (fun r => removable r.1)
      (p.db.candidates cutoff) (p.listed.filter fun r => r.2 < cutoff) := by
  rw [SweepPass.after, LogDb.candidates_sweep]
  refine Batches.filter_eq_remaining fun r hr => ?_
  obtain ⟨hrun, hold, -⟩ := mem_candidates.mp hr
  rw [List.contains_iff_mem, List.mem_filter, decide_eq_true_eq]
  constructor
  · intro hmem
    obtain ⟨r', hr', hfst⟩ := List.mem_map.mp hmem
    have hrun' := (mem_candidates.mp (hlisted.subset hr')).1
    obtain rfl := List.inj_on_of_nodup_map p.db.runKeys hrun' hrun hfst
    exact ⟨hr', hold⟩
  · exact fun hmem => List.mem_map_of_mem hmem.1

theorem batch_below (hlisted : p.db.Listing p.cutoff limit p.listed) (h : cutoff ≤ p.cutoff) :
    Batches.Batch Prod.snd limit (p.db.candidates cutoff) (p.listed.filter fun r => r.2 < cutoff) := by
  rw [candidates_below h]
  exact Batches.Batch.below (p.db.nodup_candidates p.cutoff) hlisted cutoff

/-- **The passes work off what was old at the first one**, whatever comes since. -/
theorem Sweeps.passes (h : Sweeps removable limit (p :: ps)) (hcutoff : cutoff ≤ p.cutoff) :
    Batches.Passes (fun r => removable r.1) Prod.snd limit (ps.length + 1) (p.db.candidates cutoff)
      ((((p :: ps).getLast (List.cons_ne_nil _ _)).after removable).candidates cutoff) := by
  have hlisted := h.listed p List.mem_cons_self
  induction ps generalizing p with
  | nil =>
    refine .pass (batch_below hlisted hcutoff) ?_
    rw [← candidates_after hlisted]
    exact .done _
  | cons q ps ih =>
    obtain ⟨⟨hle, hbetween⟩, hchain⟩ := List.isChain_cons_cons.mp h.between
    have hrest : Sweeps removable limit (q :: ps) :=
      ⟨fun r hr => h.listed r (List.mem_cons_of_mem _ hr), hchain⟩
    have hkept : q.db.candidates cutoff = (p.after removable).candidates cutoff := by
      rw [candidates_below hcutoff, candidates_between hbetween, ← candidates_below hcutoff]
    have hlater := ih hrest (hcutoff.trans hle) (h.listed q (by simp))
    rw [hkept, candidates_after hlisted] at hlater
    exact .pass (batch_below hlisted hcutoff) hlater

/-- A pass over candidates of which the oldest cannot be removed and fill it leaves all as it is. -/
theorem after_of_oldest (hlisted : p.db.Listing p.cutoff limit p.listed) {oldest : List (String × Int)}
    (hnodup : oldest.Nodup) (hsub : oldest ⊆ p.db.candidates p.cutoff) (hfill : limit ≤ oldest.length)
    (hstuck : ∀ r ∈ oldest, removable r.1 = false)
    (hold : ∀ r ∈ oldest, ∀ r' ∈ p.db.candidates p.cutoff, r' ∉ oldest → r.2 < r'.2) :
    p.after removable = p.db := by
  have hlist : p.listed ⊆ oldest := Batches.Batch.subset_oldest hlisted hnodup hsub hfill hold
  refine p.db.sweep_of_stuck fun id hid => ?_
  obtain ⟨r, hr, rfl⟩ := List.mem_map.mp hid
  exact hstuck r (hlist hr)

/-- **So it stays**: what comes since is not as old. -/
theorem Sweeps.starve (h : Sweeps removable limit (p :: ps)) {oldest : List (String × Int)}
    (hnodup : oldest.Nodup) (hsub : oldest ⊆ p.db.candidates p.cutoff) (hfill : limit ≤ oldest.length)
    (hstuck : ∀ r ∈ oldest, removable r.1 = false)
    (hold : ∀ r ∈ oldest, ∀ r' ∈ p.db.candidates p.cutoff, r' ∉ oldest → r.2 < r'.2) :
    ∀ q ∈ p :: ps, q.after removable = q.db := by
  have hsame := after_of_oldest (h.listed p List.mem_cons_self) hnodup hsub hfill hstuck hold
  induction ps generalizing p with
  | nil =>
    intro q hq
    obtain rfl := List.mem_singleton.mp hq
    exact hsame
  | cons p' ps ih =>
    obtain ⟨⟨hle, hbetween⟩, hchain⟩ := List.isChain_cons_cons.mp h.between
    rw [hsame] at hbetween
    have hkept := candidates_between hbetween
    have hsub' : oldest ⊆ p'.db.candidates p'.cutoff := by
      intro r hr
      have hmem := hsub hr
      rw [← hkept, candidates_below hle] at hmem
      exact (List.mem_filter.mp hmem).1
    have hold' : ∀ r ∈ oldest, ∀ r' ∈ p'.db.candidates p'.cutoff, r' ∉ oldest → r.2 < r'.2 := by
      intro r hr r' hr' hnot
      by_cases hbefore : r'.2 < p.cutoff
      · refine hold r hr r' ?_ hnot
        rw [← hkept, candidates_below hle]
        exact List.mem_filter.mpr ⟨hr', decide_eq_true hbefore⟩
      · exact lt_of_lt_of_le (mem_candidates.mp (hsub hr)).2.1 (not_lt.mp hbefore)
    have hrest : Sweeps removable limit (p' :: ps) :=
      ⟨fun r hr => h.listed r (List.mem_cons_of_mem _ hr), hchain⟩
    have hsame' := after_of_oldest (h.listed p' (by simp)) hnodup hsub' hfill hstuck hold'
    intro q hq
    rcases List.mem_cons.mp hq with rfl | hq
    · exact hsame
    · exact ih hrest hsub' hold' hsame' q hq

end Passes

/-- **Sweeps settle.** A pass keeps every row, and the steps of every run that is not a candidate as they
are. While fewer of the runs that are old at the first pass cannot be removed than a pass takes, so many
passes leave these of them alone, whatever else has become old since; once the oldest of them fill a pass,
no pass ever discards anything. -/
theorem sweeps_settle {removable : String → Bool} {limit : Nat} {p : SweepPass} {ps : List SweepPass}
    (h : Sweeps removable limit (p :: ps)) :
    (∀ q ∈ p :: ps, (q.after removable).runs = q.db.runs ∧ (q.after removable).jobs = q.db.jobs ∧
      (q.after removable).steps.map (·.id) = q.db.steps.map (·.id) ∧
      ∀ s ∈ q.db.steps, (∀ r ∈ q.db.candidates q.cutoff, q.db.inRun r.1 s = false) →
        s ∈ (q.after removable).steps) ∧
    ((p.db.candidates p.cutoff).length - (Batches.stuck (fun r => removable r.1)
        (p.db.candidates p.cutoff)).length ≤ (p :: ps).length *
          (limit - (Batches.stuck (fun r => removable r.1) (p.db.candidates p.cutoff)).length) →
      (((p :: ps).getLast (List.cons_ne_nil _ _)).after removable).candidates p.cutoff =
        Batches.stuck (fun r => removable r.1) (p.db.candidates p.cutoff)) ∧
    ∀ oldest : List (String × Int), oldest.Nodup → oldest ⊆ p.db.candidates p.cutoff →
      limit ≤ oldest.length → (∀ r ∈ oldest, removable r.1 = false) →
      (∀ r ∈ oldest, ∀ r' ∈ p.db.candidates p.cutoff, r' ∉ oldest → r.2 < r'.2) →
      ∀ q ∈ p :: ps, q.after removable = q.db := by
  refine ⟨fun q hq => ?_, fun henough => ?_,
    fun oldest hnodup hsub hfill hstuck hold => h.starve hnodup hsub hfill hstuck hold⟩
  · obtain ⟨hruns, hjobs, hsteps⟩ := q.db.rows_sweep removable (q.listed.map Prod.fst)
    refine ⟨hruns, hjobs, hsteps, fun s hs hnot => LogDb.mem_sweep hs fun id hid => ?_⟩
    obtain ⟨r, hr, rfl⟩ := List.mem_map.mp hid
    exact hnot r ((h.listed q hq).subset hr)
  · exact (h.passes (le_refl p.cutoff)).settle (p.db.nodup_candidates p.cutoff) henough

/-! ## A run that is stuck -/

/-- A step with its log, of the one job of a run. -/
private def loggedStep (run : String) : LoggedStep :=
  ⟨run ++ ".build.0", run ++ ".build", 0, some [run, "build", "000.log"], 5⟩

private def buildOf (run : String) : LoggedJob := ⟨run ++ ".build", run, "build"⟩

/-- Three old runs with logs, and one that is young. -/
private def fourRuns : LogDb where
  runs := [("0-1", 10), ("0-2", 20), ("0-3", 25), ("0-4", 35)]
  jobs := [buildOf "0-1", buildOf "0-2", buildOf "0-3", buildOf "0-4"]
  steps := [loggedStep "0-1", loggedStep "0-2", loggedStep "0-3"]
  runKeys := by decide
  jobKeys := by decide
  stepKeys := by decide

private def canRemove (id : String) : Bool := id != "0-1"

private def firstPass : SweepPass := ⟨30, fourRuns, [("0-1", 10), ("0-2", 20)]⟩

/-- The young run has written a log, and then become old. -/
private def secondPass : SweepPass where
  cutoff := 40
  db := { firstPass.after canRemove with
    steps := (firstPass.after canRemove).steps ++ [loggedStep "0-4"]
    stepKeys := by decide }
  listed := [("0-1", 10), ("0-3", 25)]

/-- The directory of the oldest one cannot be removed: two passes discard the logs of the others that
were old, and the last one waits. -/
theorem sweeps_settle_stuck : Sweeps canRemove 2 [firstPass, secondPass] ∧
    (secondPass.after canRemove).candidates 30 = [("0-1", 10)] := by
  have hother : ∀ r ∈ (firstPass.after canRemove).runs, r.2 < 30 →
      (firstPass.after canRemove).inRun r.1 (loggedStep "0-4") = false := by decide
  have hbetween : Between 30 (firstPass.after canRemove) secondPass.db := by
    refine ⟨by decide, fun r hr hold s => ⟨?_, fun h => ⟨List.mem_append_left _ h.1, h.2⟩⟩⟩
    rintro ⟨hs, hin⟩
    refine ⟨(List.mem_append.mp hs).resolve_right fun hnew => ?_, hin⟩
    rw [List.mem_singleton.mp hnew] at hin
    exact Bool.false_ne_true ((hother r hr hold).symm.trans hin)
  have hpasses : Sweeps canRemove 2 [firstPass, secondPass] := by
    refine ⟨by decide, ?_⟩
    exact List.isChain_cons_cons.mpr ⟨⟨by decide, hbetween⟩, List.IsChain.singleton _⟩
  have hstuck : Batches.stuck (fun r => canRemove r.1) (fourRuns.candidates 30) = [("0-1", 10)] := by
    decide
  refine ⟨hpasses, ?_⟩
  rw [← hstuck]
  exact (sweeps_settle hpasses).2.1 (by decide)

end HeyoCi
