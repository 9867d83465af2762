import HeyoCi.Plan.Order
import HeyoCi.Steps.Timeout

/-!
# The computations with the times of a workflow

Minutes become seconds in 64 bits when a job is planned and when a step is run, and a command is polled
up to an instant, whose seconds are signed.

* `TimeCalc`, `TimeCalc.Fits`: a computation, and that it does not overflow;
* `submitCalcs`: those of `Plan::build`; `execCalcs`, `StepFile.calcs`: those of `Vm::exec` and of a
  step; `PlannedJob.runCalcs`: those of a run of a job;
* `TimesFit`: none of those made for a workflow overflows, while the clock reads no more than some time;
* `TimesBounded`: the minutes and the deadlines are bounded;
* **`timesFit_iff`**: no computation overflows exactly when they are;
* `greatest_minutes_overflow`: a workflow with the greatest minutes there are.
-/

namespace HeyoCi

/-! ## The computations -/

/-- How long a command is polled beyond its timeout. -/
def pollSlack : Nat := 30

/-- The timeout of a command that uploads or checks a part of the source. -/
def partTimeout : Nat := 120

/-- The timeout of the command that unpacks the source. -/
def unpackTimeout : Nat := 300

/-- A computation with times, in seconds. -/
inductive TimeCalc where
  /-- `minutes * 60` -/
  | seconds (minutes : Nat)
  /-- `Instant::now() + timeout + POLL_SLACK` -/
  | deadline (now timeout : Nat)
  /-- `timeout + POLL_SLACK` -/
  | after (timeout : Nat)
  deriving Repr, DecidableEq

/-- An unsigned sum. -/
def addUnsigned (a b : Nat) : Option Nat := if a + b < 2 ^ 64 then some (a + b) else none

/-- An instant some time later. -/
def addInstant (instant duration : Nat) : Option Nat :=
  if instant + duration < 2 ^ 63 then some (instant + duration) else none

/-- What a computation gives, unless it overflows. -/
def TimeCalc.value : TimeCalc → Option Nat
  | seconds minutes => if minutes * 60 < 2 ^ 64 then some (minutes * 60) else none
  | deadline now timeout => (addInstant now timeout).bind fun t => addInstant t pollSlack
  | after timeout => addUnsigned timeout pollSlack

def TimeCalc.Fits (c : TimeCalc) : Prop := c.value.isSome = true

instance (c : TimeCalc) : Decidable c.Fits := inferInstanceAs (Decidable (_ = _))

/-- The greatest number of minutes that is a number of seconds. -/
def maxMinutes : Nat := (2 ^ 64 - 1) / 60

theorem fits_seconds {minutes : Nat} : (TimeCalc.seconds minutes).Fits ↔ minutes ≤ maxMinutes := by
  rw [TimeCalc.Fits, TimeCalc.value, maxMinutes]
  split_ifs with h
  · exact iff_of_true rfl (by omega)
  · exact iff_of_false (by simp) (by omega)

theorem fits_deadline {now timeout : Nat} :
    (TimeCalc.deadline now timeout).Fits ↔ now + timeout + pollSlack < 2 ^ 63 := by
  rw [TimeCalc.Fits, TimeCalc.value, addInstant]
  unfold addInstant
  by_cases h : now + timeout < 2 ^ 63
  · simp only [if_pos h, Option.bind_some]
    split_ifs with hslack
    · exact iff_of_true rfl hslack
    · exact iff_of_false (by simp) hslack
  · simp only [if_neg h, Option.bind_none]
    exact iff_of_false (by simp) (by omega)

theorem fits_after {timeout : Nat} :
    (TimeCalc.after timeout).Fits ↔ timeout + pollSlack < 2 ^ 64 := by
  rw [TimeCalc.Fits, TimeCalc.value, addUnsigned]
  split_ifs with h
  · exact iff_of_true rfl h
  · exact iff_of_false (by simp) h

/-! ## Where they are made -/

/-- The minutes of a job, as they are written or by default. -/
def Job.minutes {Y : Type} (job : Job Y) : Nat := job.timeoutMinutes.getD defaultJobTimeoutMinutes

/-- `Plan::build`, for the cells up to the first matrix that is bad. -/
def submitCalcs {Y : Type} (y : YamlCrate Y) (wf : Workflow Y) : List TimeCalc :=
  (Loop.collect (draftsOf y) wf.jobs).1.map fun d => .seconds d.job.minutes

/-- What the clock reads when a command has been started, whether the command is polled then, and
whether that goes on beyond the deadline. -/
structure Polling where
  now : Nat
  waits : Bool
  late : Bool

/-- `Vm::exec`. -/
def execCalcs (timeout : Nat) (polling : Polling) : List TimeCalc :=
  if polling.waits then
    .deadline polling.now timeout :: if polling.late then [.after timeout] else []
  else []

/-- A step that gets as far as its command. -/
def StepFile.calcs (b : StepFile) (job : Nat) (polling : Polling) : List TimeCalc :=
  if b.run.isSome then
    (b.timeoutMinutes.map .seconds).toList ++ execCalcs (b.runTimeout job) polling
  else if b.uploads then execCalcs uploadTimeout polling
  else []

/-- The commands of a job: those that upload the parts of the source, the one that unpacks it, and
those of the steps, by their places. -/
structure Pollings where
  parts : List Polling
  unpack : Polling
  steps : Nat → Polling

/-- The clock reads no more than some time. -/
structure Pollings.Until (pollings : Pollings) (clock : Nat) : Prop where
  parts : ∀ polling ∈ pollings.parts, polling.now ≤ clock
  unpack : pollings.unpack.now ≤ clock
  steps : ∀ idx, (pollings.steps idx).now ≤ clock

section

variable (exprs : Exprs) (scope : JobScope) (jobId : String) (calls : Nat → StepCalls)

/-- A run of a job. -/
def PlannedJob.runCalcs (p : PlannedJob) (pollings : Pollings) : List TimeCalc :=
  pollings.parts.flatMap (execCalcs partTimeout) ++ execCalcs unpackTimeout pollings.unpack ++
    (p.executed exprs scope jobId calls).flatMap fun e => e.1.calcs p.timeout (pollings.steps e.2)

/-- Some run of a job gets as far as the command of a step. -/
def PlannedJob.Reaches (p : PlannedJob) (e : StepFile × Nat) : Prop :=
  ∃ scope jobId calls, e ∈ p.executed exprs scope jobId calls

end

section Workflows

variable {Y F : Type} (y : YamlCrate Y) (fl : Expr.Floats F) (exprs : Exprs) (wf : Workflow Y)
  (clock : Nat)

/-- No computation made for a workflow overflows: none when it is submitted, and none in a run of a job
of its plan, while the clock reads no more than some time. -/
structure TimesFit : Prop where
  submit : ∀ c ∈ submitCalcs y wf, c.Fits
  run : ∀ plan, Plan.build y fl wf = .ok plan → ∀ p ∈ plan.cells,
    ∀ scope jobId calls pollings, Pollings.Until pollings clock →
      ∀ c ∈ p.runCalcs exprs scope jobId calls pollings, c.Fits

/-- The minutes of a step are seconds in 64 bits, and the deadline of its command is an instant. -/
structure StepFile.TimesBounded (b : StepFile) (clock job : Nat) : Prop where
  minutes : b.run.isSome → ∀ m, b.timeoutMinutes = some m → m ≤ maxMinutes
  run : b.run.isSome →
    clock + min ((b.timeoutMinutes.map (· * 60)).getD defaultStepTimeout) job + pollSlack < 2 ^ 63
  upload : b.run = none → b.uploads → clock + uploadTimeout + pollSlack < 2 ^ 63

/-- The minutes of the jobs that are expanded are bounded; and, if the workflow has a plan with cells,
so is the deadline of the source, and every step that a run gets to has bounded times. -/
structure TimesBounded : Prop where
  jobs : ∀ pre entry post, wf.jobs = pre ++ entry :: post →
    (∀ e ∈ pre ++ [entry], ∃ combos, expandMatrix y e.1 e.2 = .ok combos) →
    entry.2.minutes ≤ maxMinutes
  source : ∀ plan, Plan.build y fl wf = .ok plan → plan.cells ≠ [] →
    clock + unpackTimeout + pollSlack < 2 ^ 63
  steps : ∀ plan, Plan.build y fl wf = .ok plan → ∀ p ∈ plan.cells, ∀ entry ∈ wf.jobs,
    p.baseId = entry.1 → ∀ e, p.Reaches exprs e →
      e.1.TimesBounded clock (entry.2.minutes * 60)

end Workflows

/-! ## One command, one step, one run -/

/-- A command polled by a clock that reads no more than some time. -/
theorem execCalcs_fit {timeout clock : Nat} :
    (∀ polling : Polling, polling.now ≤ clock → ∀ c ∈ execCalcs timeout polling, c.Fits) ↔
      clock + timeout + pollSlack < 2 ^ 63 := by
  constructor
  · intro h
    exact fits_deadline.mp (h ⟨clock, true, false⟩ (le_refl clock) _ List.mem_cons_self)
  · intro h polling hnow c hc
    unfold execCalcs at hc
    split_ifs at hc with hwaits hlate
    · rw [List.mem_pair] at hc
      rcases hc with rfl | rfl
      · exact fits_deadline.mpr (by omega)
      · exact fits_after.mpr (by omega)
    · rw [List.mem_singleton] at hc
      rw [hc]
      exact fits_deadline.mpr (by omega)
    · exact absurd hc List.not_mem_nil

/-- With bounded minutes the timeout of a step is the one that is written. -/
theorem StepFile.runTimeout_eq {b : StepFile} {job : Nat}
    (h : ∀ m, b.timeoutMinutes = some m → m ≤ maxMinutes) :
    b.runTimeout job = min ((b.timeoutMinutes.map (· * 60)).getD defaultStepTimeout) job := by
  unfold runTimeout
  cases hm : b.timeoutMinutes with
  | none => rfl
  | some m =>
    have hsmall : m * 60 < 2 ^ 64 := by
      have := h m hm
      unfold maxMinutes at this
      omega
    rw [Option.map_some, Option.map_some, Nat.mod_eq_of_lt hsmall]

theorem StepFile.calcs_fit {b : StepFile} {clock job : Nat} :
    (∀ polling : Polling, polling.now ≤ clock → ∀ c ∈ b.calcs job polling, c.Fits) ↔
      b.TimesBounded clock job := by
  unfold StepFile.calcs
  by_cases hrun : b.run.isSome = true
  · simp only [if_pos hrun, List.forall_mem_append, Option.mem_toList,
      Option.map_eq_some_iff]
    constructor
    · intro h
      have hminutes : ∀ m, b.timeoutMinutes = some m → m ≤ maxMinutes := fun m hm =>
        fits_seconds.mp ((h ⟨clock, false, false⟩ (le_refl clock)).1 _ ⟨m, hm, rfl⟩)
      refine ⟨fun _ => hminutes, fun _ => ?_, fun hnone => absurd hrun (by rw [hnone]; decide)⟩
      rw [← runTimeout_eq hminutes, ← execCalcs_fit]
      exact fun polling hnow => (h polling hnow).2
    · intro h polling hnow
      refine ⟨?_, ?_⟩
      · rintro c ⟨m, hm, rfl⟩
        exact fits_seconds.mpr (h.minutes hrun m hm)
      · refine execCalcs_fit.mpr ?_ polling hnow
        rw [runTimeout_eq (h.minutes hrun)]
        exact h.run hrun
  · have hnone : b.run = none := by simpa using hrun
    simp only [if_neg hrun]
    by_cases hup : b.uploads = true
    · simp only [if_pos hup, execCalcs_fit]
      exact ⟨fun h => ⟨fun hr => absurd hr hrun, fun hr => absurd hr hrun, fun _ _ => h⟩,
        fun h => h.upload hnone hup⟩
    · simp only [if_neg hup]
      exact iff_of_true (fun _ _ _ hc => absurd hc List.not_mem_nil)
        ⟨fun hr => absurd hr hrun, fun hr => absurd hr hrun, fun _ hu => absurd hu hup⟩

/-- **The runs of a job.** -/
theorem PlannedJob.runCalcs_fit {exprs : Exprs} {p : PlannedJob} {clock : Nat} :
    (∀ scope jobId calls pollings, Pollings.Until pollings clock →
      ∀ c ∈ p.runCalcs exprs scope jobId calls pollings, c.Fits) ↔
    clock + unpackTimeout + pollSlack < 2 ^ 63 ∧
      ∀ e, p.Reaches exprs e → e.1.TimesBounded clock p.timeout := by
  constructor
  · intro h
    refine ⟨execCalcs_fit.mp fun polling hnow c hc => ?_, ?_⟩
    · refine h ⟨[], .obj [], ⟨[], []⟩⟩ "" (fun _ => .fine) ⟨[], polling, fun _ => polling⟩
        ⟨fun _ hp => absurd hp List.not_mem_nil, hnow, fun _ => hnow⟩ c ?_
      exact List.mem_append_left _ (List.mem_append_right _ hc)
    · rintro e ⟨scope, jobId, calls, he⟩
      refine StepFile.calcs_fit.mp fun polling hnow c hc => ?_
      refine h scope jobId calls ⟨[], polling, fun _ => polling⟩
        ⟨fun _ hp => absurd hp List.not_mem_nil, hnow, fun _ => hnow⟩ c ?_
      exact List.mem_append_right _ (List.mem_flatMap.mpr ⟨e, he, hc⟩)
  · rintro ⟨hsource, hsteps⟩ scope jobId calls pollings huntil c hc
    rw [runCalcs, List.mem_append, List.mem_append, List.mem_flatMap, List.mem_flatMap] at hc
    obtain (⟨polling, hmem, hc⟩ | hc) | ⟨e, he, hc⟩ := hc
    · have hpart : clock + partTimeout + pollSlack < 2 ^ 63 := by
        unfold unpackTimeout at hsource
        unfold partTimeout
        omega
      exact execCalcs_fit.mpr hpart polling (huntil.parts polling hmem) c hc
    · exact execCalcs_fit.mpr hsource _ huntil.unpack c hc
    · exact StepFile.calcs_fit.mpr (hsteps e ⟨scope, jobId, calls, he⟩) _ (huntil.steps e.2) c hc

/-! ## A workflow -/

section Workflows

variable {Y F : Type} {y : YamlCrate Y} {fl : Expr.Floats F} {wf : Workflow Y}

theorem draftsOf_ok_iff {entry : String × Job Y} (htarget : ∃ target, entry.2.target = .ok target) :
    (∃ ds, draftsOf y entry = .ok ds) ↔ ∃ combos, expandMatrix y entry.1 entry.2 = .ok combos := by
  obtain ⟨target, htarget⟩ := htarget
  constructor
  · rintro ⟨ds, h⟩
    obtain ⟨combos, hcombos, -⟩ := Loop.bind_ok_iff.mp h
    exact ⟨combos, hcombos⟩
  · rintro ⟨combos, h⟩
    refine ⟨_, Loop.bind_ok_iff.mpr ⟨combos, h, Loop.bind_ok_iff.mpr ⟨target, ?_, rfl⟩⟩⟩
    rw [htarget]
    rfl

/-- **The computations of a submit**, of a workflow whose targets are fine. -/
theorem submitCalcs_fit (htarget : ∀ entry ∈ wf.jobs, ∃ target, entry.2.target = .ok target) :
    (∀ c ∈ submitCalcs y wf, c.Fits) ↔ ∀ pre entry post, wf.jobs = pre ++ entry :: post →
      (∀ e ∈ pre ++ [entry], ∃ combos, expandMatrix y e.1 e.2 = .ok combos) →
      entry.2.minutes ≤ maxMinutes := by
  simp only [submitCalcs, List.forall_mem_map, fits_seconds, Loop.mem_collect]
  constructor
  · intro h pre entry post hsplit hgood
    have hmem : ∀ e ∈ pre ++ [entry], e ∈ wf.jobs := fun e he => by
      rw [hsplit, List.append_cons]
      exact List.mem_append_left _ he
    have hdrafts : ∀ e ∈ pre ++ [entry], ∃ ds, draftsOf y e = .ok ds := fun e he =>
      (draftsOf_ok_iff (htarget e (hmem e he))).mpr (hgood e he)
    obtain ⟨ds, hds⟩ := hdrafts entry (List.mem_append_right _ List.mem_cons_self)
    obtain ⟨hne, hall⟩ := draftsOf_ok hds
    obtain ⟨d, hd⟩ := List.exists_mem_of_ne_nil ds hne
    have hjob : d.job = entry.2 := congrArg Prod.snd (hall d hd).1
    rw [← hjob]
    exact h d ⟨pre, entry, post, ds, hsplit, fun e he => hdrafts e (List.mem_append_left _ he), hds, hd⟩
  · rintro h d ⟨pre, entry, post, ds, hsplit, hpre, hds, hd⟩
    have hjob : d.job = entry.2 := congrArg Prod.snd ((draftsOf_ok hds).2 d hd).1
    rw [hjob]
    refine h pre entry post hsplit fun e he => ?_
    have hmem : e ∈ wf.jobs := by
      rw [hsplit, List.append_cons]
      exact List.mem_append_left _ he
    refine (draftsOf_ok_iff (htarget e hmem)).mp ?_
    rcases List.mem_append.mp he with he | he
    · exact hpre e he
    · rw [List.mem_singleton.mp he]
      exact ⟨ds, hds⟩

/-- With a plan there is no matrix that is bad. -/
theorem expands_of_build {plan : BuiltPlan} (h : Plan.build y fl wf = .ok plan) :
    ∀ entry ∈ wf.jobs, ∃ combos, expandMatrix y entry.1 entry.2 = .ok combos := by
  obtain ⟨drafts, hdrafts, -, -⟩ := build_ok h
  intro entry hentry
  have himage : draftsOf y entry ∈ drafts.map .ok := by
    rw [← Loop.mapEach_ok_iff.mp hdrafts]
    exact List.mem_map_of_mem hentry
  obtain ⟨ds, -, hds⟩ := List.mem_map.mp himage
  obtain ⟨combos, hcombos, -⟩ := Loop.bind_ok_iff.mp hds.symm
  exact ⟨combos, hcombos⟩

/-- A cell of a plan is one of a job of the file, with its steps, and its minutes as seconds. -/
theorem entry_of_cell {plan : BuiltPlan} (h : Plan.build y fl wf = .ok plan) {p : PlannedJob}
    (hp : p ∈ plan.cells) : ∃ entry ∈ wf.jobs, p.baseId = entry.1 ∧ p.blocks = entry.2.steps ∧
      p.timeout = entry.2.minutes * 60 % 2 ^ 64 := by
  obtain ⟨drafts, hdrafts, hperm, -⟩ := build_ok h
  obtain ⟨⟨d, key⟩, hzip, rfl⟩ := List.mem_map.mp (hperm.mem_iff.mp hp)
  exact ⟨_, (draft_of_mem hdrafts (List.of_mem_zip hzip).1).1, rfl, rfl, rfl⟩

/-- **No computation with the times of an accepted workflow overflows exactly when** its times are
bounded. -/
theorem timesFit_iff {path yaml : String} (hparse : Workflow.parse y path yaml = .ok wf)
    (exprs : Exprs) (clock : Nat) :
    TimesFit y fl exprs wf clock ↔ TimesBounded y fl exprs wf clock := by
  obtain ⟨-, -, -, -, -, -, -, -, hvalid⟩ := Workflow.parse_ok hparse
  obtain ⟨hids, hjobs, -⟩ := Workflow.validate_ok hvalid
  have hsubmit := @submitCalcs_fit Y y wf fun entry hentry =>
    (Workflow.checkJob_ok (hjobs entry hentry)).2.1
  -- with bounded minutes every cell of a plan has the seconds of its job
  have htimeout : (∀ c ∈ submitCalcs y wf, c.Fits) → ∀ plan, Plan.build y fl wf = .ok plan →
      ∀ p ∈ plan.cells, ∃ entry ∈ wf.jobs, p.baseId = entry.1 ∧
        p.timeout = entry.2.minutes * 60 := by
    intro hfit plan hbuild p hp
    obtain ⟨entry, hentry, hbase, -, heq⟩ := entry_of_cell hbuild hp
    obtain ⟨pre, post, hsplit⟩ := List.append_of_mem hentry
    have hminutes : entry.2.minutes ≤ maxMinutes := by
      refine hsubmit.mp hfit pre entry post hsplit fun e he => expands_of_build hbuild e ?_
      rw [hsplit, List.append_cons]
      exact List.mem_append_left _ he
    have hsmall : entry.2.minutes * 60 < 2 ^ 64 := by
      unfold maxMinutes at hminutes
      omega
    rw [Nat.mod_eq_of_lt hsmall] at heq
    exact ⟨entry, hentry, hbase, heq⟩
  constructor
  · intro h
    have hrun := fun plan hbuild p hp => PlannedJob.runCalcs_fit.mp (h.run plan hbuild p hp)
    refine ⟨hsubmit.mp h.submit, fun plan hbuild hne => ?_,
      fun plan hbuild p hp entry hentry hbase => ?_⟩
    · obtain ⟨p, hp⟩ := List.exists_mem_of_ne_nil _ hne
      exact (hrun plan hbuild p hp).1
    · obtain ⟨entry', hentry', hbase', heq⟩ := htimeout h.submit plan hbuild p hp
      have hsame : entry' = entry :=
        List.inj_on_of_nodup_map hids hentry' hentry (hbase'.symm.trans hbase)
      rw [← hsame, ← heq]
      exact (hrun plan hbuild p hp).2
  · intro h
    have hfit := hsubmit.mpr h.jobs
    refine ⟨hfit, fun plan hbuild p hp => PlannedJob.runCalcs_fit.mpr ⟨?_, ?_⟩⟩
    · exact h.source plan hbuild (List.ne_nil_of_mem hp)
    · obtain ⟨entry, hentry, hbase, heq⟩ := htimeout hfit plan hbuild p hp
      rw [heq]
      exact h.steps plan hbuild p hp entry hentry hbase

/-- **Bounds that a file can be checked for.** -/
theorem timesBounded_of_le {path yaml : String} (hparse : Workflow.parse y path yaml = .ok wf)
    {clock : Nat} (hclock : clock + defaultStepTimeout + pollSlack < 2 ^ 63)
    (hjobs : ∀ entry ∈ wf.jobs, entry.2.minutes ≤ maxMinutes)
    (hsteps : ∀ entry ∈ wf.jobs, ∀ b ∈ entry.2.steps, ∀ m, b.timeoutMinutes = some m →
      clock + m * 60 + pollSlack < 2 ^ 63) (exprs : Exprs) : TimesBounded y fl exprs wf clock := by
  unfold defaultStepTimeout pollSlack at hclock
  refine ⟨fun pre entry post hsplit _ => hjobs entry ?_, fun _ _ _ => ?_,
    fun plan hbuild p hp entry hentry hbase e he => ?_⟩
  · rw [hsplit]
    exact List.mem_append_right _ List.mem_cons_self
  · unfold unpackTimeout pollSlack
    omega
  · obtain ⟨-, -, -, -, -, -, -, -, hvalid⟩ := Workflow.parse_ok hparse
    obtain ⟨entry', hentry', hbase', hblocks, -⟩ := entry_of_cell hbuild hp
    have hsame : entry' = entry := List.inj_on_of_nodup_map (Workflow.validate_ok hvalid).1 hentry'
      hentry (hbase'.symm.trans hbase)
    obtain ⟨scope, jobId, calls, he⟩ := he
    have hmem := PlannedJob.mem_zipIdx_of_mem_executed he
    rw [hblocks, hsame] at hmem
    have hstep := hsteps entry hentry e.1 (List.fst_mem_of_mem_zipIdx hmem)
    refine ⟨fun _ m hm => ?_, fun _ => ?_, fun _ _ => ?_⟩
    · have := hstep m hm
      unfold maxMinutes
      omega
    · refine lt_of_le_of_lt (Nat.add_le_add_right (Nat.add_le_add_left (min_le_left _ _) _) _) ?_
      cases hm : e.1.timeoutMinutes with
      | none => exact hclock
      | some m => exact hstep m hm
    · unfold uploadTimeout pollSlack
      omega

end Workflows

private def timedCrate (job step : Option Nat) : YamlCrate Json :=
  .ofJobs [("build", { Job.ofCommand "make" with
    timeoutMinutes := job
    steps := (Job.ofCommand "make").steps.map fun b => { b with timeoutMinutes := step } })]

/-- A job of half an hour, with a step of five minutes, after thirty years. -/
theorem half_an_hour_fits : ∃ wf, Workflow.parse (timedCrate (some 30) (some 5)) "build.yml" "" = .ok wf ∧
    TimesFit (timedCrate (some 30) (some 5)) Expr.Floats.absent .plain wf (10 ^ 9) := by
  have htimes : (Workflow.parse (timedCrate (some 30) (some 5)) "build.yml" "").toOption.map
      (fun wf => wf.jobs.all fun entry => entry.2.minutes = 30 &&
        entry.2.steps.all fun b => b.timeoutMinutes = some 5) = some true := by decide
  obtain ⟨wf, hwf, hall⟩ := Option.map_eq_some_iff.mp htimes
  have hparse := Loop.ok_of_toOption hwf
  simp only [List.all_eq_true, Bool.and_eq_true, decide_eq_true_eq] at hall
  refine ⟨wf, hparse, (timesFit_iff hparse .plain (10 ^ 9)).mpr ?_⟩
  refine timesBounded_of_le hparse (by decide) (fun entry hentry => ?_)
    (fun entry hentry b hb m hm => ?_) .plain
  · rw [(hall entry hentry).1]
    decide
  · rw [(hall entry hentry).2 b hb] at hm
    cases hm
    decide

/-- A workflow with the greatest minutes there are is accepted, and they are multiplied. -/
theorem greatest_minutes_overflow : ¬ ∀ (Y F : Type) (y : YamlCrate Y) (fl : Expr.Floats F)
    (exprs : Exprs) (path yaml : String) (wf : Workflow Y),
    Workflow.parse y path yaml = .ok wf → TimesFit y fl exprs wf 0 := by
  intro h
  have hcalcs : (Workflow.parse (timedCrate (some (2 ^ 64 - 1)) none) "build.yml" "").toOption.map
      (submitCalcs (timedCrate (some (2 ^ 64 - 1)) none)) = some [.seconds (2 ^ 64 - 1)] := by
    decide
  obtain ⟨wf, hwf, hcalcs⟩ := Option.map_eq_some_iff.mp hcalcs
  have hfit := (h Json _ _ Expr.Floats.absent .plain "build.yml" "" wf
    (Loop.ok_of_toOption hwf)).submit
  rw [hcalcs] at hfit
  exact absurd (hfit _ List.mem_cons_self) (by decide)

end HeyoCi
