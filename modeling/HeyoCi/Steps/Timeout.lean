import Mathlib.Algebra.Order.BigOperators.Group.List
import Mathlib.Algebra.Order.Field.Rat
import Mathlib.Algebra.Order.Ring.NNRat
import Mathlib.Algebra.Order.Ring.Nat
import Mathlib.Algebra.BigOperators.Ring.Finset
import HeyoCi.Plan.Build
import HeyoCi.Steps.Leak
import HeyoCi.Steps.Reference

/-!
# The time of a job

Every step is given a timeout of its own, at most that of the job.

* `StepFile.execLimit`: the timeout that a step's command has in the guest;
* `executed`: the steps whose command is sent to the guest, in their order; `runLoop_executed`: they are
  the ones that have a log; `executed_sublist`, `executed_fine`;
* `spent`, `Lasts`: the time in the guest, of commands that end by their timeouts;
* **`timeout_bounds_iff`**: it is at most the job's timeout if and only if the timeouts of the steps
  add up to no more.
-/

namespace HeyoCi

def defaultStepTimeout : Nat := 30 * 60

/-- The timeout of the command that collects an artifact. -/
def uploadTimeout : Nat := 600

/-- The timeout of a command in the guest: whole seconds, and at least one. -/
def guestTimeout (timeout : Nat) : Nat := max timeout 1

namespace StepFile

variable (b : StepFile) (job : Nat)

/-- The timeout of a step's `run:`, in seconds, its minutes in 64 bits. -/
def runTimeout : Nat := min ((b.timeoutMinutes.map (· * 60 % 2 ^ 64)).getD defaultStepTimeout) job

/-- The step is an action that runs a command in the guest. -/
def uploads : Bool :=
  b.uses = some "ci/upload-artifact" && (b.withArgs.lookup "name").isSome &&
    (b.withArgs.lookup "path").isSome

/-- How long the step's command may take in the guest. -/
def execLimit : Nat :=
  if b.run.isSome then guestTimeout (b.runTimeout job)
  else if b.uploads then guestTimeout uploadTimeout
  else 0

end StepFile

/-! ## The commands that are sent -/

/-- What the loop does after a turn, where it goes on. -/
def Turn.goOn {α : Type} (later : StepsState → List α) : Turn → List α
  | .next st => later st
  | .leave _ | .stop _ => []

namespace Turn

variable {α : Type} (later : StepsState → List α)

@[simp] theorem goOn_next (st : StepsState) : (next st).goOn later = later st := rfl

@[simp] theorem goOn_leave (e : DispatchError) : (leave e).goOn later = [] := rfl

@[simp] theorem goOn_stop (st : StepsState) : (stop st).goOn later = [] := rfl

end Turn

section Executed

variable (exprs : Exprs) (plan : JobPlan) (scope : JobScope) (jobId : String)

/-- A step gets as far as its command. -/
def stepStarts (calls : StepCalls) (step : Step) (st : StepsState) : Bool :=
  match calls.isCancelled, calls.writes.create, stepRuns exprs plan scope step st, calls.writes.start with
  | .ok false, .ok (), .ok true, .ok () => true
  | _, _, _, _ => false

/-- The steps that get as far as their commands, from one on. -/
def executed (calls : Nat → StepCalls) : List StepFile → Nat → StepsState → List (StepFile × Nat)
  | [], _, _ => []
  | b :: rest, idx, st =>
    let later := (runStep exprs plan scope jobId (calls idx) idx b.toStep st).2.goOn
      (executed calls rest (idx + 1))
    if stepStarts exprs plan scope (calls idx) b.toStep st then (b, idx) :: later else later

variable {exprs plan scope jobId}

theorem runStarted_logs (calls : StepCalls) (idx : Nat) (step : Step) (st : StepsState) :
    (runStarted scope jobId calls idx step st).1.map Append.stepId = [Store.stepId jobId idx] := by
  unfold runStarted
  by_cases hrun : step.run.isSome = true
  · cases calls.exec <;> simp [hrun]
  · rw [Bool.not_eq_true] at hrun
    cases calls.action <;> simp [hrun]

/-- A step that gets as far as its command has a log. -/
theorem runStep_logs (calls : StepCalls) (idx : Nat) (step : Step) (st : StepsState) :
    (runStep exprs plan scope jobId calls idx step st).1.map Append.stepId =
      if stepStarts exprs plan scope calls step st then [Store.stepId jobId idx] else [] := by
  unfold runStep stepStarts
  cases calls.isCancelled with
  | error e => rfl
  | ok cancelled =>
    cases cancelled with
    | true => rfl
    | false =>
      cases calls.writes.create with
      | error e => rfl
      | ok u =>
        cases stepRuns exprs plan scope step st with
        | error e => rfl
        | ok runs =>
          cases runs with
          | false => rfl
          | true =>
            cases calls.writes.start with
            | error e => rfl
            | ok u => exact runStarted_logs calls idx step st

/-- **The steps that get as far as their commands** are the ones that have a log. -/
theorem runLoop_executed (calls : Nat → StepCalls) (blocks : List StepFile) (idx : Nat)
    (st : StepsState) :
    (runLoop exprs plan scope jobId calls (blocks.map (·.toStep)) idx st).1.map Append.stepId =
      (executed exprs plan scope jobId calls blocks idx st).map fun e => Store.stepId jobId e.2 := by
  induction blocks generalizing idx st with
  | nil => rfl
  | cons b rest ih =>
    have hlogs := @runStep_logs exprs plan scope jobId (calls idx) idx b.toStep st
    rw [List.map_cons, runLoop, executed]
    rcases hturn : runStep exprs plan scope jobId (calls idx) idx b.toStep st with ⟨logs, turn⟩
    rw [hturn] at hlogs
    by_cases hstarts : stepStarts exprs plan scope (calls idx) b.toStep st = true
    · rw [if_pos hstarts] at hlogs ⊢
      cases turn with
      | leave e => simpa using hlogs
      | stop st => simpa using hlogs
      | next st =>
        simp only [List.map_append, hlogs, ih, List.map_cons, Turn.goOn_next]
        rfl
    · rw [if_neg hstarts] at hlogs ⊢
      cases turn with
      | leave e => simpa using hlogs
      | stop st => simpa using hlogs
      | next st => simp only [List.map_append, hlogs, ih, List.nil_append, Turn.goOn_next]

theorem executed_sublist (calls : Nat → StepCalls) (blocks : List StepFile) (idx : Nat)
    (st : StepsState) :
    (executed exprs plan scope jobId calls blocks idx st).Sublist (blocks.zipIdx idx) := by
  induction blocks generalizing idx st with
  | nil => exact List.Sublist.slnil
  | cons b rest ih =>
    rw [executed, List.zipIdx_cons]
    have hlater : ((runStep exprs plan scope jobId (calls idx) idx b.toStep st).2.goOn
        (executed exprs plan scope jobId calls rest (idx + 1))).Sublist (rest.zipIdx (idx + 1)) := by
      cases (runStep exprs plan scope jobId (calls idx) idx b.toStep st).2 with
      | next st => exact ih (idx + 1) st
      | leave e => exact List.nil_sublist _
      | stop st => exact List.nil_sublist _
    split_ifs
    · exact hlater.cons_cons _
    · exact hlater.cons _

/-- The outside answers as it does where nothing goes wrong. -/
def StepCalls.fine : StepCalls := ⟨.ok false, .fine, .ok "", .ok ⟨"", "", "", 0⟩⟩

theorem StepCalls.succeeds_fine (step : Step) : StepCalls.fine.succeeds step = true := by
  unfold succeeds
  split_ifs <;> rfl

theorem StepCalls.lost_fine (step : Step) : StepCalls.fine.lost step = false := by
  simp [lost, fine, Except.isOk, Except.toBool]

theorem condition_plain (step : Step) (outputs : Json.Obj) :
    Reference.condition .plain plan scope step ⟨outputs, false⟩ = .ok true := by
  unfold Reference.condition
  cases step.condition <;> rfl

theorem runStep_fine (idx : Nat) (step : Step) (outputs : Json.Obj) :
    (runStep .plain plan scope jobId .fine idx step ⟨outputs, none⟩).2 =
      .next ⟨StepCalls.fine.recorded step jobId idx outputs, none⟩ := by
  have hquiet : Quiet StepCalls.fine := ⟨rfl, rfl, rfl, rfl, rfl⟩
  obtain ⟨-, reason, hturn⟩ := @runStarted_quiet scope jobId _ hquiet idx step outputs
  rw [runStep_quiet _ _ _ _ hquiet, condition_plain, hturn, StepCalls.breaks,
    StepCalls.succeeds_fine, StepCalls.lost_fine]
  rfl

/-- Where nothing goes wrong, every step gets as far as its command. -/
theorem executed_fine (blocks : List StepFile) (idx : Nat) (outputs : Json.Obj) :
    executed .plain plan scope jobId (fun _ => .fine) blocks idx ⟨outputs, none⟩ =
      blocks.zipIdx idx := by
  induction blocks generalizing idx outputs with
  | nil => rfl
  | cons b rest ih =>
    have hstarts : stepStarts .plain plan scope .fine b.toStep ⟨outputs, none⟩ = true := by
      rw [stepStarts, stepRuns_of_none, condition_plain]
      rfl
    rw [executed, if_pos hstarts, runStep_fine, Turn.goOn_next, ih, List.zipIdx_cons]

end Executed

/-! ## The time they take -/

section Spent

variable (exprs : Exprs) (p : PlannedJob) (scope : JobScope) (jobId : String) (calls : Nat → StepCalls)

/-- The steps of a job that get as far as their commands. -/
def PlannedJob.executed : List (StepFile × Nat) :=
  HeyoCi.executed exprs p.toJobPlan scope jobId calls p.blocks 0 ⟨[], none⟩

/-- The seconds that the commands of a job's steps take, by the place of the step. -/
def PlannedJob.spent (durations : Nat → ℚ≥0) : ℚ≥0 :=
  ((p.executed exprs scope jobId calls).map fun e => durations e.2).sum

/-- Every command ends by its timeout. -/
def PlannedJob.Lasts (durations : Nat → ℚ≥0) : Prop :=
  ∀ e ∈ p.blocks.zipIdx, durations e.2 ≤ e.1.execLimit p.timeout

variable {exprs p scope jobId calls}

/-- The limit of a step by its place. -/
def PlannedJob.limitAt (p : PlannedJob) (idx : Nat) : ℚ≥0 :=
  ((p.blocks[idx]?.map fun b => b.execLimit p.timeout).getD 0 : Nat)

theorem PlannedJob.limitAt_of_mem {e : StepFile × Nat} (he : e ∈ p.blocks.zipIdx) :
    p.limitAt e.2 = e.1.execLimit p.timeout := by
  rw [limitAt, List.mem_zipIdx_iff_getElem?.mp he]
  rfl

theorem PlannedJob.mem_zipIdx_of_mem_executed {e : StepFile × Nat}
    (he : e ∈ p.executed exprs scope jobId calls) : e ∈ p.blocks.zipIdx :=
  (executed_sublist calls p.blocks 0 ⟨[], none⟩).subset he

/-- **The longest time in the guest** is that of commands that run into their timeouts. -/
theorem PlannedJob.spent_le_iff :
    (∀ durations, p.Lasts durations → p.spent exprs scope jobId calls durations ≤ p.timeout) ↔
      ((p.executed exprs scope jobId calls).map fun e => e.1.execLimit p.timeout).sum ≤ p.timeout := by
  have hcast : ((((p.executed exprs scope jobId calls).map fun e =>
      e.1.execLimit p.timeout).sum : ℕ) : ℚ≥0) =
      ((p.executed exprs scope jobId calls).map fun e => (e.1.execLimit p.timeout : ℚ≥0)).sum := by
    rw [Nat.cast_list_sum, List.map_map]
    rfl
  rw [← @Nat.cast_le ℚ≥0, hcast]
  constructor
  · intro h
    have hlimit := h p.limitAt fun e he => (p.limitAt_of_mem he).le
    rwa [spent, List.map_congr_left fun e he => p.limitAt_of_mem (mem_zipIdx_of_mem_executed he)]
      at hlimit
  · intro h durations hlasts
    refine (List.sum_le_sum fun e he => ?_).trans h
    exact hlasts e (mem_zipIdx_of_mem_executed he)

end Spent

/-- **The timeout of a job bounds its commands, in a run, if and only if** the timeouts of the commands
that are sent add up to no more; **and in every run if and only if** those of its steps do. -/
theorem timeout_bounds_iff (p : PlannedJob) :
    (∀ exprs scope jobId calls,
      (∀ durations, p.Lasts durations → p.spent exprs scope jobId calls durations ≤ p.timeout) ↔
        ((p.executed exprs scope jobId calls).map fun e => e.1.execLimit p.timeout).sum ≤ p.timeout) ∧
    ((∀ exprs scope jobId calls durations, p.Lasts durations →
      p.spent exprs scope jobId calls durations ≤ p.timeout) ↔
        (p.blocks.map (·.execLimit p.timeout)).sum ≤ p.timeout) := by
  refine ⟨fun _ _ _ _ => PlannedJob.spent_le_iff, ?_⟩
  have hall : (p.blocks.zipIdx.map fun e => e.1.execLimit p.timeout) =
      p.blocks.map (·.execLimit p.timeout) := by
    calc p.blocks.zipIdx.map (fun e => e.1.execLimit p.timeout)
        = (p.blocks.zipIdx.map Prod.fst).map (·.execLimit p.timeout) := by rw [List.map_map]; rfl
      _ = p.blocks.map (·.execLimit p.timeout) := by rw [List.zipIdx_map_fst]
  constructor
  · intro h
    have hfine := PlannedJob.spent_le_iff.mp
      (h .plain ⟨[], .obj [], ⟨[], []⟩⟩ "r.build" fun _ => .fine)
    rwa [PlannedJob.executed, executed_fine, hall] at hfine
  · intro h exprs scope jobId calls durations hlasts
    refine PlannedJob.spent_le_iff.mpr ?_ durations hlasts
    rw [← hall] at h
    exact (((executed_sublist calls p.blocks 0 ⟨[], none⟩).map _).sum_le_sum (by simp)).trans h

/-- A job of two commands that may take a minute. -/
private def twoCommands : PlannedJob :=
  Draft.plan Expr.Floats.absent
    ⟨"build", { Job.ofCommand "make" with
      steps := (Job.ofCommand "make").steps ++ (Job.ofCommand "make test").steps
      timeoutMinutes := some 1 }, 0, [], Target.any⟩ "build"

/-- Each of two commands may take all of the job's time. -/
theorem timeout_given_twice : ¬ ∀ (p : PlannedJob) exprs scope jobId calls durations,
    p.Lasts durations → p.spent exprs scope jobId calls durations ≤ p.timeout := by
  intro hall
  have hsum := PlannedJob.spent_le_iff.mp
    (hall twoCommands .plain ⟨[], .obj [], ⟨[], []⟩⟩ "r.build" fun _ => .fine)
  rw [PlannedJob.executed, executed_fine] at hsum
  revert hsum
  decide

end HeyoCi
