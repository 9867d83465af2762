import HeyoCi.Steps.Run

/-!
# Secrets in the logs

Every text of `run_steps` goes through the masker, and only the texts of the code around a masked
error do not. The console of the VM is appended as it is.

* `JobCalls`, `jobTrace`: what an execution of a job appends, and where it resolves its secrets;
* `After`: what holds of everything appended after that;
* `runSteps_covered`, `jobTrace_covered`: how those texts are made;
* **`redacted_iff`**: which of them contain a secret.
-/

namespace HeyoCi

/-! ## An execution -/

/-- How `ensure_image` ends. -/
inductive ImageEnd where
  /-- The job builds none, or the host has it. -/
  | ready
  | built (log : String) (marked : Bool)
  | failed (detail : String)
  /-- Any other error. -/
  | lost

/-- What the outside answers to an execution of a job, once it has claimed the job. -/
structure JobCalls where
  imageStep : Except String Unit
  image : ImageEnd
  /-- It got a VM and started the job. -/
  started : Bool
  checkout : CheckoutCalls
  /-- The needs, the run and the secrets. -/
  scope : Except DispatchError JobScope
  steps : Nat → StepCalls
  consoleStep : Except String Unit
  console : Except String String

/-- What an execution does that matters here. -/
inductive Event where
  | resolved (r : Resolved)
  | append (a : Append)
  deriving Repr, DecidableEq

def attachBuildLog (jobId : String) (create : Except String Unit) (text : String) : List Append :=
  match create with
  | .error _ => []
  | .ok () => [⟨s!"{jobId}.imglog", .plain text⟩]

/-- The image of the job, and whether the execution goes on. -/
def ensureImage (jobId : String) (create : Except String Unit) : ImageEnd → List Append × Bool
  | .ready => ([], true)
  | .built log marked => (attachBuildLog jobId create log, marked)
  | .failed detail => (attachBuildLog jobId create s!"[ci] {detail}\n", false)
  | .lost => ([], false)

section Trace

variable (exprs : Exprs) (plan : JobPlan) (runId jobId : String) (calls : JobCalls)

/-- Resolving the secrets, then the steps. -/
def stepsTrace : List Event :=
  match calls.scope with
  | .error _ => []
  | .ok scope => .resolved scope.resolved ::
      (runSteps exprs plan scope jobId calls.steps).1.map .append

/-- What an execution of a job does, to its end. -/
def jobTrace : List Event :=
  let (imageLogs, goesOn) := ensureImage jobId calls.imageStep calls.image
  let (checkoutLogs, checkedOut) := checkout plan runId jobId calls.checkout
  imageLogs.map .append ++
    if !goesOn || !calls.started then []
    else checkoutLogs.map .append ++
      ((match checkedOut with
        | .ok () => stepsTrace exprs plan jobId calls
        | .error _ => []) ++
      (captureVmLog jobId calls.consoleStep calls.console).map .append)

end Trace

/-! ## After the secrets were resolved -/

/-- `P` holds of every text appended after the secrets were resolved. -/
def After (P : Resolved → Append → Prop) : List Event → Prop
  | [] => True
  | .append _ :: es => After P es
  | .resolved r :: es => (∀ a, .append a ∈ es → P r a) ∧ After P es

section After

variable {P Q : Resolved → Append → Prop} {es : List Event}

theorem after_append (as : List Append) : After P (as.map .append ++ es) ↔ After P es := by
  induction as with
  | nil => exact Iff.rfl
  | cons a as ih => exact ih

theorem after_appends (as : List Append) : After P (as.map .append) := by
  rw [← List.append_nil (as.map Event.append), after_append]
  trivial

theorem after_resolved {r : Resolved} {as : List Append} :
    After P (.resolved r :: as.map .append) ↔ ∀ a ∈ as, P r a := by
  simp [After, after_appends]

theorem After.take (h : After P es) (n : Nat) : After P (es.take n) := by
  induction es generalizing n with
  | nil => simp [After]
  | cons e es ih =>
    cases n with
    | zero => trivial
    | succ n =>
      cases e with
      | append a => exact ih h n
      | resolved r => exact ⟨fun a ha => h.1 a (List.mem_of_mem_take ha), ih h.2 n⟩

/-- Two laws that agree on the texts that there are hold of the same executions. -/
theorem After.congr {R : Resolved → Append → Prop} (h : After R es)
    (hPQ : ∀ r a, R r a → (P r a ↔ Q r a)) : After P es ↔ After Q es := by
  induction es with
  | nil => exact Iff.rfl
  | cons e es ih =>
    cases e with
    | append a => exact ih h
    | resolved r => exact and_congr (forall₂_congr fun a ha => hPQ r a (h.1 a ha)) (ih h.2)

end After

/-! ## How the texts are made -/

/-- The text goes through the masker. -/
def Logged.Covered (m : Masker) : Logged → Prop
  | .plain _ => False
  | .masked m' _ => m' = m
  | .framed m' .. => m' = m

section Covered

variable {exprs : Exprs} {plan : JobPlan} {scope : JobScope} {jobId : String}

theorem runStarted_covered {calls : StepCalls} {idx : Nat} {step : Step} {st : StepsState} :
    ∀ a ∈ (runStarted scope jobId calls idx step st).1, a.log.Covered scope.resolved.masker := by
  intro a ha
  unfold runStarted at ha
  split at ha
  · split at ha <;> obtain rfl := List.mem_singleton.mp ha <;> rfl
  · split at ha <;> obtain rfl := List.mem_singleton.mp ha <;> rfl

theorem runStep_covered {calls : StepCalls} {idx : Nat} {step : Step} {st : StepsState} :
    ∀ a ∈ (runStep exprs plan scope jobId calls idx step st).1,
      a.log.Covered scope.resolved.masker := by
  intro a ha
  unfold runStep at ha
  split at ha
  · cases ha
  · cases ha
  · cases ha
  · split at ha
    · cases ha
    · cases ha
    · split at ha
      · cases ha
      · exact runStarted_covered a ha

theorem runLoop_covered {calls : Nat → StepCalls} {steps : List Step} {idx : Nat} {st : StepsState} :
    ∀ a ∈ (runLoop exprs plan scope jobId calls steps idx st).1,
      a.log.Covered scope.resolved.masker := by
  induction steps generalizing idx st with
  | nil => simp [runLoop]
  | cons step rest ih =>
    have hstep : ∀ a ∈ (runStep exprs plan scope jobId (calls idx) idx step st).1,
        a.log.Covered scope.resolved.masker := runStep_covered
    rw [runLoop]
    revert hstep
    generalize runStep exprs plan scope jobId (calls idx) idx step st = turn
    intro hstep a ha
    obtain ⟨logs, t⟩ := turn
    cases t with
    | leave e => exact hstep a ha
    | stop st => exact hstep a ha
    | next st =>
      rcases List.mem_append.mp ha with ha | ha
      · exact hstep a ha
      · exact ih a ha

/-- **Every text of `run_steps` goes through the masker.** -/
theorem runSteps_covered {calls : Nat → StepCalls} :
    ∀ a ∈ (runSteps exprs plan scope jobId calls).1, a.log.Covered scope.resolved.masker :=
  runLoop_covered

/-- **After the secrets were resolved, every text goes through the masker or is the console's.** -/
theorem jobTrace_covered (exprs : Exprs) (plan : JobPlan) (runId jobId : String) (calls : JobCalls) :
    After (fun r a => a.log.Covered r.masker ∨
      a ∈ captureVmLog jobId calls.consoleStep calls.console)
      (jobTrace exprs plan runId jobId calls) := by
  unfold jobTrace
  rw [after_append]
  split_ifs with hgo
  · trivial
  rw [after_append]
  split
  · unfold stepsTrace
    cases calls.scope with
    | error e => exact after_appends _
    | ok scope =>
      rw [List.cons_append, ← List.map_append, after_resolved]
      intro a ha
      rcases List.mem_append.mp ha with ha | ha
      · exact Or.inl (runSteps_covered a ha)
      · exact Or.inr ha
  · exact after_appends _

end Covered

theorem mem_captureVmLog {jobId : String} {create : Except String Unit}
    {console : Except String String} {a : Append} (h : a ∈ captureVmLog jobId create console) :
    ∃ text, a.log = .plain text := by
  unfold captureVmLog at h
  split at h
  · cases h
  · obtain rfl := List.mem_singleton.mp h
    exact ⟨_, rfl⟩

/-! ## Which texts contain a secret -/

/-- No text appended after the secrets were resolved contains one of them. -/
def Redacted : List Event → Prop :=
  After fun r a => ∀ v, r.Hides v → ¬ v.toList <:+: a.log.text.toList

/-- If it is a text of the console it does not contain `v`, and if it is a masked error `v` does not
lie across its edge. -/
def Append.Clean (console : List Append) (v : String) (a : Append) : Prop :=
  (a ∈ console → ¬ v.toList <:+: a.log.text.toList) ∧
    ∀ m before error after, a.log = .framed m before error after →
      ¬ Words.Straddles before.toList (m.mask error).toList after.toList v.toList

/-- **A text that is masked or the console's has no secret in it exactly when it is clean.** -/
theorem Append.clean_iff {r : Resolved} {v : String} (hv : r.Hides v) {console : List Append}
    (hconsole : ∀ a ∈ console, ∃ text, a.log = .plain text) {a : Append}
    (h : a.log.Covered r.masker ∨ a ∈ console) :
    ¬ v.toList <:+: a.log.text.toList ↔ a.Clean console v := by
  by_cases hmem : a ∈ console
  · obtain ⟨text, hplain⟩ := hconsole a hmem
    refine ⟨fun hno => ⟨fun _ => hno, fun m before error after hlog => ?_⟩, fun hclean => hclean.1 hmem⟩
    rw [hplain] at hlog
    cases hlog
  · have hcovered := h.resolve_right hmem
    obtain ⟨sid, log⟩ := a
    cases log with
    | plain text => exact absurd hcovered id
    | masked m text =>
      obtain rfl : m = r.masker := hcovered
      refine iff_of_true (Resolved.not_infix_mask hv text) ⟨fun hin => absurd hin hmem, ?_⟩
      intro m before error after hlog
      cases hlog
    | framed m before error after =>
      obtain rfl : m = r.masker := hcovered
      rw [Logged.text, String.toList_append, String.toList_append, Words.infix_frame_iff,
        or_iff_right (Resolved.not_infix_mask hv error)]
      constructor
      · refine fun hno => ⟨fun hin => absurd hin hmem, fun m' before' error' after' hlog => ?_⟩
        cases hlog
        exact hno
      · exact fun hclean => hclean.2 _ _ _ _ rfl

/-- **An execution, as far as it comes, appends no secret after it resolved them exactly when none is
in the console of the VM and none lies across the edge of a masked error.** -/
theorem redacted_iff (exprs : Exprs) (plan : JobPlan) (runId jobId : String) (calls : JobCalls)
    (n : Nat) : Redacted ((jobTrace exprs plan runId jobId calls).take n) ↔
      After (fun r a => ∀ v, r.Hides v →
          a.Clean (captureVmLog jobId calls.consoleStep calls.console) v)
        ((jobTrace exprs plan runId jobId calls).take n) := by
  refine ((jobTrace_covered exprs plan runId jobId calls).take n).congr fun r a h => ?_
  exact forall₂_congr fun v hv => Append.clean_iff hv (fun _ ha => mem_captureVmLog ha) h

/-- Every call of the store succeeds. -/
def StepWrites.fine : StepWrites := ⟨.ok (), .ok (), .ok (), .ok ()⟩

/-- Every `if:` is true, and nothing is substituted. -/
def Exprs.plain : Exprs := ⟨fun _ _ => .ok true, fun _ s => s⟩

/-- A step prints its secret to its own output and to the console of the VM. -/
def printsSecret : JobCalls where
  imageStep := .ok ()
  image := .ready
  started := true
  checkout := ⟨.fine, "/ci", some "/ci/r/source.tar.gz", .ok 10, .ok ⟨"", "", "", 0⟩⟩
  scope := .ok ⟨[], .obj [], ⟨[("TOKEN", "hunter22")], []⟩⟩
  steps _ := ⟨.ok false, .fine, .ok "", .ok ⟨"token hunter22\n", "", "", 0⟩⟩
  consoleStep := .ok ()
  console := .ok "token hunter22\n"

/-- The log of the step has stars, the console's log has the secret. -/
theorem console_leaks : ¬ ∀ (exprs : Exprs) (plan : JobPlan) (runId jobId : String)
    (calls : JobCalls) (n : Nat), Redacted ((jobTrace exprs plan runId jobId calls).take n) := by
  intro h
  have htrace : jobTrace .plain (.plain "build" []) "r" "r.build" printsSecret =
      [.append ⟨"r.build.checkout", .plain "[ci] 10 bytes extracted into /workspace\n"⟩,
        .resolved ⟨[("TOKEN", "hunter22")], []⟩,
        .append ⟨"r.build.0", .masked ⟨["hunter22"]⟩ "token hunter22\n"⟩,
        .append ⟨"r.build.vmlog", .plain "token hunter22\n"⟩] := by decide
  have hall := h .plain (.plain "build" []) "r" "r.build" printsSecret 4
  rw [htrace] at hall
  refine hall.1 ⟨"r.build.vmlog", .plain "token hunter22\n"⟩ (by simp) "hunter22" (by decide) ?_
  exact ⟨"token ".toList, "\n".toList, by decide⟩

end HeyoCi
