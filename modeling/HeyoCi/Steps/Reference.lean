import HeyoCi.Expr.Condition
import HeyoCi.Lib.Loop

/-!
# Which steps run

The steps of a job as the comments of the code describe them: after a failure the list goes on, and
a step runs if its condition holds under the status there is by then.

* `Reference.condition`, `Reference.after`, `Reference.run`: the reference;
* `AtEach`: a property of every step in the state in which it is considered;
* `Quiet`: nothing is cancelled and the store answers;
* `Conforms`, **`runSteps_conforms_iff`**: where the loop of the executor does what the reference
  does;
* `Completes`, **`runSteps_completes_iff`**: where steps whose failures are forgiven do not stop it;
* `teardown_skipped`, `lost_not_forgiven`: lists on which it does something else.
-/

namespace HeyoCi

/-! ## How a step ends -/

namespace StepCalls

variable (calls : StepCalls) (step : Step)

/-- The command exits with zero, or the action returns. -/
def succeeds : Bool :=
  if step.run.isSome then match calls.exec with
    | .ok out => out.succeeded
    | .error _ => false
  else calls.action.isOk

/-- The command of a step gave no result. -/
def lost : Bool := step.run.isSome && !calls.exec.isOk

/-- A step fails the job. -/
def breaks : Bool := !calls.succeeds step && !step.continueOnError

/-- The outputs of the steps after an executed one: a command that ended has some. -/
def recorded (jobId : String) (idx : Nat) (outputs : Json.Obj) : Json.Obj :=
  if step.run.isSome then match calls.exec, step.id with
    | .ok out, some id =>
      let outcome := if out.succeeded then "success" else "failure"
      let declared := (splitOutputs out (Store.stepId jobId idx)).2
      Json.Obj.insert id (.obj [("outcome", .str outcome), ("outputs", .obj declared)]) outputs
    | _, _ => outputs
  else outputs

end StepCalls

/-! ## The reference -/

namespace Reference

/-- The outputs of the steps so far, and whether one of them failed the job. -/
structure State where
  outputs : Json.Obj
  failed : Bool

section

variable (exprs : Exprs) (plan : JobPlan) (scope : JobScope)

def context (st : State) : Json.Obj :=
  Json.Obj.insert "__status" (.str (if st.failed then "failure" else "success"))
    (scope.context plan st.outputs)

/-- The value of a step's condition. Without one, the step waits for the success of those before. -/
def condition (step : Step) (st : State) : Except String Bool := match step.condition with
  | some c => exprs.evalCondition (context plan scope st) c
  | none => .ok !st.failed

/-- The condition of a step is true. -/
def holds (step : Step) (st : State) : Bool := match condition exprs plan scope step st with
  | .ok b => b
  | .error _ => false

/-- The condition of a step has a value. -/
def evaluates (step : Step) (st : State) : Bool := (condition exprs plan scope step st).isOk

variable (jobId : String) (calls : Nat → StepCalls)

/-- The state after an executed step. -/
def after (idx : Nat) (step : Step) (st : State) : State where
  outputs := (calls idx).recorded step jobId idx st.outputs
  failed := st.failed || (calls idx).breaks step

/-- The state after a step. -/
def next (idx : Nat) (step : Step) (st : State) : State :=
  if holds exprs plan scope step st then after jobId calls idx step st else st

/-- The steps that are executed from one on, and the state they leave. -/
def run : List Step → Nat → State → List Nat × State
  | [], _, st => ([], st)
  | step :: rest, idx, st =>
    let (executed, last) := run rest (idx + 1) (next exprs plan scope jobId calls idx step st)
    (if holds exprs plan scope step st then idx :: executed else executed, last)

/-- A property of every step from one on, in the state in which it is considered. -/
def AtEach (P : State → Nat → Step → Prop) : List Step → Nat → State → Prop
  | [], _, _ => True
  | step :: rest, idx, st => P st idx step ∧
    AtEach P rest (idx + 1) (next exprs plan scope jobId calls idx step st)

instance AtEach.decidable (P : State → Nat → Step → Prop)
    [∀ st idx step, Decidable (P st idx step)] : ∀ steps idx st,
    Decidable (AtEach exprs plan scope jobId calls P steps idx st)
  | [], _, _ => isTrue trivial
  | _ :: rest, idx, _ => @instDecidableAnd _ _ _ (AtEach.decidable P rest (idx + 1) _)

variable {exprs plan scope jobId calls}

theorem holds_of_ok {step : Step} {st : State} {b : Bool}
    (h : condition exprs plan scope step st = .ok b) : holds exprs plan scope step st = b := by
  rw [holds, h]

theorem evaluates_of_ok {step : Step} {st : State} {b : Bool}
    (h : condition exprs plan scope step st = .ok b) : evaluates exprs plan scope step st = true := by
  rw [evaluates, h]
  rfl

theorem holds_of_error {step : Step} {st : State} {e : String}
    (h : condition exprs plan scope step st = .error e) :
    holds exprs plan scope step st = false := by
  rw [holds, h]

theorem evaluates_of_error {step : Step} {st : State} {e : String}
    (h : condition exprs plan scope step st = .error e) :
    evaluates exprs plan scope step st = false := by
  rw [evaluates, h]
  rfl

theorem next_of_holds {idx : Nat} {step : Step} {st : State}
    (h : holds exprs plan scope step st = true) :
    next exprs plan scope jobId calls idx step st = after jobId calls idx step st := if_pos h

theorem next_of_not_holds {idx : Nat} {step : Step} {st : State}
    (h : holds exprs plan scope step st = false) :
    next exprs plan scope jobId calls idx step st = st := by
  rw [next, h]
  rfl

theorem AtEach.imp {P Q : State → Nat → Step → Prop}
    (hPQ : ∀ st idx step, P st idx step → Q st idx step)
    {steps : List Step} {idx : Nat} {st : State}
    (h : AtEach exprs plan scope jobId calls P steps idx st) :
    AtEach exprs plan scope jobId calls Q steps idx st := by
  induction steps generalizing idx st with
  | nil => trivial
  | cons step rest ih => exact ⟨hPQ _ _ _ h.1, ih h.2⟩

theorem AtEach.and {P Q : State → Nat → Step → Prop} {steps : List Step} {idx : Nat} {st : State}
    (hP : AtEach exprs plan scope jobId calls P steps idx st)
    (hQ : AtEach exprs plan scope jobId calls Q steps idx st) :
    AtEach exprs plan scope jobId calls (fun st idx step => P st idx step ∧ Q st idx step)
      steps idx st := by
  induction steps generalizing idx st with
  | nil => trivial
  | cons step rest ih => exact ⟨⟨hP.1, hQ.1⟩, ih hP.2 hQ.2⟩

/-- Where nothing is executed the state stays. -/
theorem run_idle {steps : List Step} {idx : Nat} {st : State}
    (h : (run exprs plan scope jobId calls steps idx st).1 = []) :
    (run exprs plan scope jobId calls steps idx st).2 = st := by
  induction steps generalizing idx with
  | nil => rfl
  | cons step rest ih =>
    by_cases hh : holds exprs plan scope step st = true
    · simp [run, hh] at h
    · rw [Bool.not_eq_true] at hh
      simp only [run, hh, Bool.false_eq_true, if_false, next_of_not_holds hh] at h ⊢
      exact ih h

/-- Nothing is executed where no condition holds. -/
theorem run_eq_nil_iff {steps : List Step} {idx : Nat} {st : State} :
    (run exprs plan scope jobId calls steps idx st).1 = [] ↔
      AtEach exprs plan scope jobId calls (fun st _ step => holds exprs plan scope step st = false)
        steps idx st := by
  induction steps generalizing idx with
  | nil => exact ⟨fun _ => trivial, fun _ => rfl⟩
  | cons step rest ih =>
    by_cases hh : holds exprs plan scope step st = true
    · simp [run, AtEach, hh]
    · rw [Bool.not_eq_true] at hh
      simp only [run, AtEach, hh, Bool.false_eq_true, if_false, next_of_not_holds hh, true_and]
      exact ih

/-- A step with `if: always()` runs in every state, one with `if: failure()` where a step failed. -/
theorem holds_status {F : Type} (fl : Expr.Floats F) (step : Step) (st : State) :
    (step.condition = some "always()" → holds (Expr.exprs fl) plan scope step st = true) ∧
      (step.condition = some "failure()" →
        holds (Expr.exprs fl) plan scope step st = st.failed) := by
  have hstatus : Expr.status (context plan scope st) =
      if st.failed then "failure" else "success" := by
    rw [Expr.status, context, Json.Obj.get_insert]
  constructor
  · intro hc
    simp only [holds, condition, hc, Expr.exprs, Expr.evalCondition_always,
      Loop.mapError_ok]
  · intro hc
    simp only [holds, condition, hc, Expr.exprs, Expr.evalCondition_failure,
      Loop.mapError_ok, hstatus]
    cases st.failed <;> decide

end

end Reference

/-! ## The executor -/

/-- Nothing is cancelled, and the store answers. -/
structure Quiet (calls : StepCalls) : Prop where
  isCancelled : calls.isCancelled = .ok false
  create : calls.writes.create = .ok ()
  start : calls.writes.start = .ok ()
  append : calls.writes.append = .ok ()
  finish : calls.writes.finish = .ok ()

section

variable (exprs : Exprs) (plan : JobPlan) (scope : JobScope) (jobId : String)

theorem turn_of_quiet {calls : StepCalls} (hquiet : Quiet calls) (t : Turn) :
    calls.writes.turn t = t := by
  rw [StepWrites.turn, StepWrites.logged, hquiet.append, hquiet.finish]

/-- **An executed step** appends once to its log. The loop goes on after it if it succeeds, or if
its failure is forgiven and its command was not lost. -/
theorem runStarted_quiet {calls : StepCalls} (hquiet : Quiet calls) (idx : Nat) (step : Step)
    (outputs : Json.Obj) :
    (runStarted scope jobId calls idx step ⟨outputs, none⟩).1.map Append.stepId =
        [Store.stepId jobId idx] ∧
      ∃ reason, (runStarted scope jobId calls idx step ⟨outputs, none⟩).2 =
        if calls.breaks step || calls.lost step
        then .stop ⟨calls.recorded step jobId idx outputs, some reason⟩
        else .next ⟨calls.recorded step jobId idx outputs, none⟩ := by
  unfold runStarted
  by_cases hrun : step.run.isSome = true
  · cases hexec : calls.exec with
    | ok out =>
      refine ⟨by simp [hrun], s!"step {Text.debugStr (step.label idx)} exited {out.exitCode}", ?_⟩
      cases hid : step.id <;>
        simp [hrun, hexec, hid, turn_of_quiet hquiet, StepCalls.breaks, StepCalls.succeeds,
          StepCalls.lost, StepCalls.recorded, Except.isOk, Except.toBool]
    | error e =>
      refine ⟨by simp [hrun], scope.resolved.masker.mask e, ?_⟩
      simp [hrun, hexec, turn_of_quiet hquiet, StepCalls.breaks, StepCalls.succeeds,
        StepCalls.lost, StepCalls.recorded, Except.isOk, Except.toBool]
  · rw [Bool.not_eq_true] at hrun
    cases haction : calls.action with
    | ok note =>
      refine ⟨by simp [hrun], "", ?_⟩
      simp [hrun, haction, turn_of_quiet hquiet, StepCalls.breaks, StepCalls.succeeds,
        StepCalls.lost, StepCalls.recorded, Except.isOk, Except.toBool]
    | error e =>
      refine ⟨by simp [hrun], scope.resolved.masker.mask e, ?_⟩
      cases hforgiven : step.continueOnError <;>
        simp [hrun, haction, hforgiven, turn_of_quiet hquiet, StepCalls.breaks,
          StepCalls.succeeds, StepCalls.lost, StepCalls.recorded, Except.isOk, Except.toBool]

theorem stepRuns_of_none (step : Step) (outputs : Json.Obj) :
    stepRuns exprs plan scope step ⟨outputs, none⟩ =
      (Reference.condition exprs plan scope step ⟨outputs, false⟩).mapError .condition := by
  have hctx : scope.stepContext plan ⟨outputs, none⟩ =
      Reference.context plan scope ⟨outputs, false⟩ := rfl
  unfold stepRuns Reference.condition
  cases step.condition with
  | none => rfl
  | some c =>
    simp only [hctx]
    cases exprs.evalCondition (Reference.context plan scope ⟨outputs, false⟩) c <;> rfl

/-- **A turn of the loop**, as long as no step failed. -/
theorem runStep_quiet {calls : StepCalls} (hquiet : Quiet calls) (idx : Nat) (step : Step)
    (outputs : Json.Obj) : runStep exprs plan scope jobId calls idx step ⟨outputs, none⟩ =
      match Reference.condition exprs plan scope step ⟨outputs, false⟩ with
      | .error e => ([], .leave (.condition e))
      | .ok false => ([], .next ⟨outputs, none⟩)
      | .ok true => runStarted scope jobId calls idx step ⟨outputs, none⟩ := by
  unfold runStep
  rw [hquiet.isCancelled, hquiet.create, stepRuns_of_none]
  cases Reference.condition exprs plan scope step ⟨outputs, false⟩ with
  | error e => rfl
  | ok b =>
    cases b with
    | false => simp only [Loop.mapError_ok, hquiet.finish]
    | true => simp only [Loop.mapError_ok, hquiet.start]

end

/-! ## The loop and the reference -/

section

variable (exprs : Exprs) (plan : JobPlan) (scope : JobScope) (jobId : String)
  (calls : Nat → StepCalls)

/-- The loop executes the steps that the reference executes, and the job fails where it fails there.
An executed step is one that appends to its log. -/
def Conforms : Prop :=
  let code := runSteps exprs plan scope jobId calls
  let reference := Reference.run exprs plan scope jobId calls plan.steps 0 ⟨[], false⟩
  code.1.map Append.stepId = reference.1.map (Store.stepId jobId) ∧
    code.2.isOk = !reference.2.failed

instance : Decidable (Conforms exprs plan scope jobId calls) := by unfold Conforms; infer_instance

/-- A step where the loop does what the reference does. Until a step failed, its condition has a
value and it is no forgiven step that loses its command; after that, its condition does not hold. -/
def Plain (st : Reference.State) (idx : Nat) (step : Step) : Prop :=
  if st.failed then Reference.holds exprs plan scope step st = false
  else Reference.evaluates exprs plan scope step st = true ∧
    (Reference.holds exprs plan scope step st = true → (calls idx).lost step = true →
      step.continueOnError = false)

instance (st : Reference.State) (idx : Nat) (step : Step) :
    Decidable (Plain exprs plan scope calls st idx step) := by unfold Plain; infer_instance

variable {exprs plan scope jobId calls}

theorem StepCalls.not_succeeds_of_lost {calls : StepCalls} {step : Step}
    (h : calls.lost step = true) : calls.succeeds step = false := by
  simp only [lost, Bool.and_eq_true, Bool.not_eq_true'] at h
  obtain ⟨hrun, hexec⟩ := h
  unfold succeeds
  cases hc : calls.exec with
  | ok out => simp [hc, Except.isOk, Except.toBool] at hexec
  | error e => simp [hrun]

/-- A lost command that does not break the job is forgiven. -/
theorem StepCalls.forgiven_of_lost {calls : StepCalls} {step : Step}
    (hlost : calls.lost step = true) (h : calls.breaks step = false) :
    step.continueOnError = true := by
  simp only [breaks, not_succeeds_of_lost hlost, Bool.not_false, Bool.true_and,
    Bool.not_eq_false'] at h
  exact h

theorem StepCalls.not_forgiven_of_breaks {calls : StepCalls} {step : Step}
    (h : calls.breaks step = true) : step.continueOnError = false := by
  simp only [breaks, Bool.and_eq_true, Bool.not_eq_true'] at h
  exact h.2

/-- After a failure every step has to be left out. -/
theorem plain_of_failed {steps : List Step} {idx : Nat} {st : Reference.State}
    (hst : st.failed = true) :
    Reference.AtEach exprs plan scope jobId calls (Plain exprs plan scope calls) steps idx st ↔
      (Reference.run exprs plan scope jobId calls steps idx st).1 = [] := by
  rw [Reference.run_eq_nil_iff]
  induction steps generalizing idx with
  | nil => exact Iff.rfl
  | cons step rest ih =>
    by_cases hh : Reference.holds exprs plan scope step st = true
    · simp [Reference.AtEach, Plain, hst, hh]
    · rw [Bool.not_eq_true] at hh
      simp only [Reference.AtEach, Plain, hst, hh, if_true, true_and,
        Reference.next_of_not_holds hh]
      exact ih

variable (exprs plan scope jobId calls) in
/-- The loop does what the reference does, from one step on. -/
def ConformsFrom (steps : List Step) (idx : Nat) (outputs : Json.Obj) : Prop :=
  (runLoop exprs plan scope jobId calls steps idx ⟨outputs, none⟩).1.map Append.stepId =
      (Reference.run exprs plan scope jobId calls steps idx ⟨outputs, false⟩).1.map
        (Store.stepId jobId) ∧
    ((runLoop exprs plan scope jobId calls steps idx ⟨outputs, none⟩).2.bind
        (jobOutputs exprs plan scope)).isOk =
      !(Reference.run exprs plan scope jobId calls steps idx ⟨outputs, false⟩).2.failed

section Turns

variable (hquiet : ∀ idx, Quiet (calls idx)) {step : Step} {rest : List Step} {idx : Nat}
  {outputs : Json.Obj}

include hquiet

/-- The loop leaves at a condition without a value, the reference goes on without a failure. -/
theorem not_conformsFrom_of_error {e : String}
    (hcond : Reference.condition exprs plan scope step ⟨outputs, false⟩ = .error e) :
    ¬ ConformsFrom exprs plan scope jobId calls (step :: rest) idx outputs := by
  have hturn := runStep_quiet exprs plan scope jobId (hquiet idx) idx step outputs
  rw [hcond] at hturn
  have hh := Reference.holds_of_error hcond
  unfold ConformsFrom runLoop
  rw [hturn]
  simp only [Reference.run, hh, Reference.next_of_not_holds hh, Bool.false_eq_true, if_false,
    List.map_nil, not_and]
  intro hnil
  rw [Reference.run_idle (List.map_eq_nil_iff.mp hnil.symm)]
  simp [Except.bind, Except.isOk, Except.toBool]

/-- A step that does not run changes nothing. -/
theorem conformsFrom_of_skipped
    (hcond : Reference.condition exprs plan scope step ⟨outputs, false⟩ = .ok false) :
    ConformsFrom exprs plan scope jobId calls (step :: rest) idx outputs ↔
      ConformsFrom exprs plan scope jobId calls rest (idx + 1) outputs := by
  have hturn := runStep_quiet exprs plan scope jobId (hquiet idx) idx step outputs
  rw [hcond] at hturn
  have hh := Reference.holds_of_ok hcond
  unfold ConformsFrom
  conv_lhs => unfold runLoop
  rw [hturn]
  simp only [Reference.run, hh, Reference.next_of_not_holds hh, Bool.false_eq_true, if_false,
    List.nil_append]

variable (hcond : Reference.condition exprs plan scope step ⟨outputs, false⟩ = .ok true)

include hcond

/-- A step that runs. -/
theorem runStep_started : ∃ logs reason, logs.map Append.stepId = [Store.stepId jobId idx] ∧
    runStep exprs plan scope jobId (calls idx) idx step ⟨outputs, none⟩ = (logs,
      if (calls idx).breaks step || (calls idx).lost step
      then .stop ⟨(calls idx).recorded step jobId idx outputs, some reason⟩
      else .next ⟨(calls idx).recorded step jobId idx outputs, none⟩) := by
  obtain ⟨hlogs, reason, hend⟩ := runStarted_quiet scope jobId (hquiet idx) idx step outputs
  refine ⟨_, reason, hlogs, ?_⟩
  rw [runStep_quiet exprs plan scope jobId (hquiet idx) idx step outputs, hcond, ← hend]

omit hquiet in
/-- The reference runs it, too. -/
theorem run_started : Reference.run exprs plan scope jobId calls (step :: rest) idx ⟨outputs, false⟩ =
    (idx :: (Reference.run exprs plan scope jobId calls rest (idx + 1)
        ⟨(calls idx).recorded step jobId idx outputs, (calls idx).breaks step⟩).1,
      (Reference.run exprs plan scope jobId calls rest (idx + 1)
        ⟨(calls idx).recorded step jobId idx outputs, (calls idx).breaks step⟩).2) := by
  have hh := Reference.holds_of_ok hcond
  simp only [Reference.run, hh, Reference.next_of_holds hh, Reference.after, Bool.false_or, if_true]

/-- The loop stops at a failure, and so does the job in the reference, whatever follows. -/
theorem conformsFrom_of_breaks (hbreaks : (calls idx).breaks step = true) :
    ConformsFrom exprs plan scope jobId calls (step :: rest) idx outputs ↔
      (Reference.run exprs plan scope jobId calls rest (idx + 1)
        ⟨(calls idx).recorded step jobId idx outputs, true⟩).1 = [] := by
  obtain ⟨logs, reason, hlogs, hturn⟩ := runStep_started hquiet hcond
  unfold ConformsFrom runLoop
  rw [hturn, run_started hcond, hbreaks]
  simp only [Bool.true_or, if_true, hlogs, List.map_cons, List.cons.injEq, true_and]
  constructor
  · exact fun h => List.map_eq_nil_iff.mp h.1.symm
  · intro h
    rw [Reference.run_idle h, h]
    exact ⟨rfl, rfl⟩

/-- The loop stops at a forgiven failure of a command that was lost, which is none in the reference. -/
theorem not_conformsFrom_of_lost (hbreaks : (calls idx).breaks step = false)
    (hlost : (calls idx).lost step = true) :
    ¬ ConformsFrom exprs plan scope jobId calls (step :: rest) idx outputs := by
  obtain ⟨logs, reason, hlogs, hturn⟩ := runStep_started hquiet hcond
  unfold ConformsFrom runLoop
  rw [hturn, run_started hcond, hbreaks, hlost]
  simp only [Bool.or_true, if_true, hlogs, List.map_cons, List.cons.injEq, true_and, not_and]
  intro hnil
  rw [Reference.run_idle (List.map_eq_nil_iff.mp hnil.symm)]
  exact Bool.false_ne_true

/-- The loop goes on after a step that does not fail the job. -/
theorem conformsFrom_of_continues (hbreaks : (calls idx).breaks step = false)
    (hlost : (calls idx).lost step = false) :
    ConformsFrom exprs plan scope jobId calls (step :: rest) idx outputs ↔
      ConformsFrom exprs plan scope jobId calls rest (idx + 1)
        ((calls idx).recorded step jobId idx outputs) := by
  obtain ⟨logs, reason, hlogs, hturn⟩ := runStep_started hquiet hcond
  unfold ConformsFrom
  conv_lhs => unfold runLoop
  rw [hturn, run_started hcond, hbreaks, hlost]
  simp only [Bool.or_false, Bool.false_eq_true, if_false, List.map_append, hlogs, List.map_cons,
    List.singleton_append, List.cons.injEq, true_and]

end Turns

/-- **The loop from one step on does what the reference does** where every step is plain. -/
theorem runLoop_conforms_iff (hquiet : ∀ idx, Quiet (calls idx)) (steps : List Step) (idx : Nat)
    (outputs : Json.Obj) : ConformsFrom exprs plan scope jobId calls steps idx outputs ↔
      Reference.AtEach exprs plan scope jobId calls (Plain exprs plan scope calls) steps idx
        ⟨outputs, false⟩ := by
  induction steps generalizing idx outputs with
  | nil => exact ⟨fun _ => trivial, fun _ => ⟨rfl, rfl⟩⟩
  | cons step rest ih =>
    cases hcond : Reference.condition exprs plan scope step ⟨outputs, false⟩ with
    | error e =>
      have hne := Reference.evaluates_of_error hcond
      refine iff_of_false (not_conformsFrom_of_error hquiet hcond) ?_
      simp [Reference.AtEach, Plain, hne]
    | ok b =>
      have hh := Reference.holds_of_ok hcond
      have he := Reference.evaluates_of_ok hcond
      cases b with
      | false =>
        rw [conformsFrom_of_skipped hquiet hcond, ih]
        simp [Reference.AtEach, Plain, hh, he, Reference.next_of_not_holds hh]
      | true =>
        simp only [Reference.AtEach, Plain, hh, he, Reference.next_of_holds hh, Bool.false_eq_true,
          if_false, true_and, true_imp_iff, Reference.after]
        cases hbreaks : (calls idx).breaks step with
        | true =>
          rw [conformsFrom_of_breaks hquiet hcond hbreaks, plain_of_failed (by rfl)]
          simp [StepCalls.not_forgiven_of_breaks hbreaks]
        | false => cases hlost : (calls idx).lost step with
          | true =>
            refine iff_of_false (not_conformsFrom_of_lost hquiet hcond hbreaks hlost) ?_
            simp [StepCalls.forgiven_of_lost hlost hbreaks]
          | false =>
            rw [conformsFrom_of_continues hquiet hcond hbreaks hlost, ih]
            simp

/-- **The executor does what the reference does on exactly the lists whose steps are plain**: no
step after a failure has a condition that holds, no forgiven step loses its command, and every
condition before a failure has a value. -/
theorem runSteps_conforms_iff (exprs : Exprs) (plan : JobPlan) (scope : JobScope) (jobId : String)
    (calls : Nat → StepCalls) (hquiet : ∀ idx, Quiet (calls idx)) :
    Conforms exprs plan scope jobId calls ↔
      Reference.AtEach exprs plan scope jobId calls (Plain exprs plan scope calls) plan.steps 0
        ⟨[], false⟩ :=
  runLoop_conforms_iff hquiet plan.steps 0 []

/-! ## Failures that are forgiven -/

variable (exprs plan scope jobId calls)

/-- Every executed step that fails has `continue-on-error`. -/
def Forgiven : Prop :=
  Reference.AtEach exprs plan scope jobId calls (fun st idx step =>
    Reference.holds exprs plan scope step st = true → (calls idx).breaks step = false)
    plan.steps 0 ⟨[], false⟩

/-- Every step whose condition holds is executed, and the job succeeds. -/
def Completes : Prop :=
  let code := runSteps exprs plan scope jobId calls
  let reference := Reference.run exprs plan scope jobId calls plan.steps 0 ⟨[], false⟩
  code.1.map Append.stepId = reference.1.map (Store.stepId jobId) ∧ code.2.isOk = true

/-- Every condition has a value, and no executed step loses its command. -/
def KeepsCommands : Prop :=
  Reference.AtEach exprs plan scope jobId calls (fun st idx step =>
    Reference.evaluates exprs plan scope step st = true ∧
      (Reference.holds exprs plan scope step st = true → (calls idx).lost step = false))
    plan.steps 0 ⟨[], false⟩

instance : Decidable (Forgiven exprs plan scope jobId calls) := by unfold Forgiven; infer_instance

instance : Decidable (Completes exprs plan scope jobId calls) := by
  unfold Completes
  infer_instance

instance : Decidable (KeepsCommands exprs plan scope jobId calls) := by
  unfold KeepsCommands
  infer_instance

variable {exprs plan scope jobId calls}

/-- Where failures are forgiven, no step is considered after one. -/
theorem sound_of_forgiven {steps : List Step} {idx : Nat} {st : Reference.State}
    (hst : st.failed = false)
    (h : Reference.AtEach exprs plan scope jobId calls (fun st idx step =>
      Reference.holds exprs plan scope step st = true → (calls idx).breaks step = false)
      steps idx st) :
    (Reference.run exprs plan scope jobId calls steps idx st).2.failed = false ∧
      Reference.AtEach exprs plan scope jobId calls (fun st _ _ => st.failed = false) steps idx
        st := by
  induction steps generalizing idx st with
  | nil => exact ⟨hst, trivial⟩
  | cons step rest ih =>
    have hnext : (Reference.next exprs plan scope jobId calls idx step st).failed = false := by
      unfold Reference.next
      split_ifs with hh
      · rw [Reference.after, hst, h.1 hh]
        rfl
      · exact hst
    obtain ⟨hlast, hrest⟩ := ih hnext h.2
    exact ⟨hlast, hst, hrest⟩

/-- **Steps whose failures are forgiven are all executed** if and only if none of them loses its
command, and every condition has a value. -/
theorem runSteps_completes_iff (exprs : Exprs) (plan : JobPlan) (scope : JobScope) (jobId : String)
    (calls : Nat → StepCalls) (hquiet : ∀ idx, Quiet (calls idx))
    (hforgiven : Forgiven exprs plan scope jobId calls) :
    Completes exprs plan scope jobId calls ↔ KeepsCommands exprs plan scope jobId calls := by
  obtain ⟨hlast, hsound⟩ := sound_of_forgiven rfl hforgiven
  have hconforms : Completes exprs plan scope jobId calls ↔
      Reference.AtEach exprs plan scope jobId calls (Plain exprs plan scope calls) plan.steps 0
        ⟨[], false⟩ := by
    rw [← runLoop_conforms_iff hquiet plan.steps 0 [], ConformsFrom, hlast]
    exact Iff.rfl
  rw [hconforms]
  have hboth := hforgiven.and hsound
  constructor
  · intro hplain
    refine (hplain.and hboth).imp fun st idx step ⟨hp, hbreaks, hst⟩ => ?_
    simp only [Plain, hst, Bool.false_eq_true, if_false] at hp
    refine ⟨hp.1, fun hh => ?_⟩
    by_contra hlost
    rw [Bool.not_eq_false] at hlost
    have hkept := StepCalls.forgiven_of_lost hlost (hbreaks hh)
    rw [hp.2 hh hlost] at hkept
    cases hkept
  · intro hkeeps
    refine (hkeeps.and hboth).imp fun st idx step ⟨hk, _, hst⟩ => ?_
    simp only [Plain, hst, Bool.false_eq_true, if_false]
    exact ⟨hk.1, fun hh hlost => absurd hlost (by rw [hk.2 hh]; exact Bool.false_ne_true)⟩

end

/-! ## Lists of steps -/

section Lists

private def shellStep (command : String) (condition : Option String) (continueOnError : Bool) :
    Step where
  name := none
  id := none
  condition := condition
  uses := none
  run := some command
  continueOnError := continueOnError

private def jobOf (steps : List Step) : JobPlan where
  key := "build"
  baseId := "build"
  display := "build"
  target := ⟨none, none, none, true⟩
  fallback := .none
  vm := ⟨some "ubuntu", none, true, none⟩
  needs := []
  condition := none
  mtx := []
  env := []
  outputs := []
  continueOnError := false
  steps := steps
  maxParallel := none
  failFast := true

private def emptyScope : JobScope := ⟨[], .obj [], ⟨[], []⟩⟩

/-- The store answers, and these commands end as they do. -/
private def answering (exec : Nat → Except String ExecOutput) (idx : Nat) : StepCalls where
  isCancelled := .ok false
  writes := ⟨.ok (), .ok (), .ok (), .ok ()⟩
  action := .ok ""
  exec := exec idx

private theorem quiet_answering (exec : Nat → Except String ExecOutput) (idx : Nat) :
    Quiet (answering exec idx) := ⟨rfl, rfl, rfl, rfl, rfl⟩

/-- The first command exits with one, the others with zero. -/
private def firstFails (idx : Nat) : Except String ExecOutput :=
  .ok ⟨"", "", "", if idx = 0 then 1 else 0⟩

/-- The first command is lost. -/
private def firstLost (idx : Nat) : Except String ExecOutput :=
  if idx = 0 then .error "the operation timed out" else .ok ⟨"", "", "", 0⟩

/-- A step without a condition is left out after a failure. -/
theorem plain_step_skipped : Conforms (Expr.exprs Expr.Floats.absent)
    (jobOf [shellStep "make test" none false, shellStep "make install" none false]) emptyScope
    "r.build" (answering firstFails) :=
  (runSteps_conforms_iff _ _ _ _ _ (quiet_answering firstFails)).mpr (by decide)

/-- **A step with `if: always()` after a failed one is not executed.** -/
theorem teardown_skipped : ¬ ∀ (exprs : Exprs) (plan : JobPlan) (scope : JobScope) (jobId : String)
    (calls : Nat → StepCalls), (∀ idx, Quiet (calls idx)) →
    Conforms exprs plan scope jobId calls := by
  intro hall
  have h := hall (Expr.exprs Expr.Floats.absent)
    (jobOf [shellStep "make test" none false, shellStep "make down" (some "always()") false])
    emptyScope "r.build" (answering firstFails) (quiet_answering firstFails)
  revert h
  decide +kernel

/-- A command that fails does not stop the steps if its step says so. -/
theorem failure_forgiven : Completes (Expr.exprs Expr.Floats.absent)
    (jobOf [shellStep "make lint" none true, shellStep "make" none false]) emptyScope "r.build"
    (answering firstFails) :=
  (runSteps_completes_iff _ _ _ _ _ (quiet_answering firstFails) (by decide +kernel)).mpr
    (by decide)

/-- **A command that is lost does**, whatever its step says. -/
theorem lost_not_forgiven : ¬ ∀ (exprs : Exprs) (plan : JobPlan) (scope : JobScope)
    (jobId : String) (calls : Nat → StepCalls), (∀ idx, Quiet (calls idx)) →
    Forgiven exprs plan scope jobId calls → Completes exprs plan scope jobId calls := by
  intro hall
  have h := hall (Expr.exprs Expr.Floats.absent)
    (jobOf [shellStep "make lint" none true, shellStep "make" none false]) emptyScope "r.build"
    (answering firstLost) (quiet_answering firstLost) (by decide +kernel)
  revert h
  decide +kernel

end Lists

end HeyoCi
