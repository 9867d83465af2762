import HeyoCi.Dispatch.Place
import HeyoCi.Store.Queries

/-!
# What a scheduler pass decides about one job

* `Env`: what the scheduler takes from outside the modelled code;
* `ciScope`, `JobPlan.baseContext`, `shouldRun`: whether a job whose needs are over runs;
* `Snapshot`: what a pass has read; `needsDone` is the gate on it;
* `Decision`, `jobDecision`: what becomes of a job;
* **`decided`**: what a decision says about the snapshot, with `jobDecision_queue` and
  `jobDecision_skip` read off it.
-/

namespace HeyoCi

/-- What the scheduler takes from outside: the evaluator of `if:` expressions, which sees the scopes
it is given, and two settings. -/
structure Env where
  evalCondition : Json.Obj → String → Except String Bool
  /-- `CI_RUNNER_WAIT_SECS`. -/
  runnerWait : Nat
  /-- `CI_MAX_JOB_SECONDS`. -/
  maxJobSeconds : Nat

/-- The `ci` expression scope. -/
def ciScope : Option Run → Json
  | none => .obj []
  | some run => .obj [
      ("before", .str run.beforeSha),
      ("branch", .str ((Text.stripPrefix "refs/heads/" run.gitRef).getD run.gitRef)),
      ("changed_files", .arr (run.changes.paths.map .str)),
      ("changes_known", .bool run.changes.isKnown),
      ("changes_reason", .str (run.changes.reason.getD "")),
      ("ref", .str run.gitRef),
      ("repository", .str run.repoUrl),
      ("run_id", .str run.id),
      ("sha", .str run.sha),
      ("workflow", .str run.workflowId)]

/-- The scopes a job's own fields are evaluated against. -/
def JobPlan.baseContext (plan : JobPlan) : Json.Obj :=
  [("env", .obj (plan.env.map fun (k, v) => (k, .str v))),
   ("job", .obj [("id", .str plan.baseId), ("key", .str plan.key)]),
   ("matrix", .obj plan.mtx)]

/-- What a pass has read: the jobs, then the needs, then the run. -/
structure Snapshot where
  jobs : List JobRow
  needs : NeedsContext
  ci : Json

/-- Whether every cell of a base id was terminal; no cell at all does not count. -/
def baseTerminal (jobs : List JobRow) (n : String) : Bool :=
  jobs.any (·.baseId = n) && jobs.all fun j => j.baseId ≠ n || j.status.isTerminal

/-- Whether the needs of a plan are over in a list of jobs. -/
def needsDone (jobs : List JobRow) (plan : JobPlan) : Bool := plan.needs.all (baseTerminal jobs)

/-- Whether some need of a plan failed or was cancelled. -/
def anyFailed (plan : JobPlan) (needs : NeedsContext) : Bool := plan.needs.any (needsFailed needs)

/-- Evaluate a job's `if:`. Without one, it runs if nothing it needs failed. -/
def shouldRun (env : Env) (plan : JobPlan) (needs : NeedsContext) (ci : Json) :
    Except DispatchError Bool :=
  match plan.condition with
  | none => .ok (!anyFailed plan needs)
  | some condition =>
    let ctx := Json.Obj.insert "needs" needs.toJson plan.baseContext
    let ctx := Json.Obj.insert "ci" ci ctx
    let status := if anyFailed plan needs then "failure" else "success"
    match env.evalCondition (Json.Obj.insert "__status" (.str status) ctx) condition with
    | .ok b => .ok b
    | .error e => .error (.condition e)

/-- What a pass does about one job. -/
inductive Decision where
  /-- Not pending, or not ready. -/
  | leave
  | finish (status : JobStatus) (error : Option String)
  | queue (plan : JobPlan) (route : Route)

/-- What a pass decides about a job of its snapshot. -/
def jobDecision (env : Env) (pool : Pool) (snap : Snapshot) (job : JobRow) : Decision :=
  if job.status ≠ .pending then .leave
  else match job.plan with
    | .error e => .finish .failure (some s!"stored plan could not be read: {e}")
    | .ok plan =>
      if needsDone snap.jobs plan = false then .leave
      else match shouldRun env plan snap.needs snap.ci with
        | .ok false => .finish .skipped none
        | .error e => .finish .failure (some s!"could not evaluate `if:` — {e.text}")
        | .ok true => match routeFor pool plan with
          | .error e => .finish .failure (some e.text)
          | .ok route => .queue plan route

/-! ## Reading a decision -/

theorem baseTerminal_iff (jobs : List JobRow) (n : String) : baseTerminal jobs n = true ↔
    (∃ j ∈ jobs, j.baseId = n) ∧ ∀ j ∈ jobs, j.baseId = n → j.status.isTerminal = true := by
  simp only [baseTerminal, Bool.and_eq_true, List.any_eq_true, List.all_eq_true,
    decide_eq_true_eq, Bool.or_eq_true, ne_eq]
  refine and_congr Iff.rfl (forall₂_congr fun j _ => ?_)
  exact Decidable.imp_iff_not_or.symm

theorem needsDone_iff (jobs : List JobRow) (plan : JobPlan) : needsDone jobs plan = true ↔
    ∀ n ∈ plan.needs, baseTerminal jobs n = true := List.all_eq_true

variable {env : Env} {pool : Pool} {snap : Snapshot} {job : JobRow}

/-- What the decision about a pending job is made from. -/
inductive Decided (env : Env) (pool : Pool) (snap : Snapshot) (job : JobRow) : Decision → Prop
  | busy (h : job.status ≠ .pending) : Decided env pool snap job .leave
  | unready (hp : job.status = .pending) (plan : JobPlan) (h : job.plan = .ok plan)
      (hn : needsDone snap.jobs plan = false) : Decided env pool snap job .leave
  | badPlan (hp : job.status = .pending) (e : String) (h : job.plan = .error e) (t : Option String) :
      Decided env pool snap job (.finish .failure t)
  | skip (hp : job.status = .pending) (plan : JobPlan) (h : job.plan = .ok plan)
      (hn : needsDone snap.jobs plan = true)
      (hr : shouldRun env plan snap.needs snap.ci = .ok false) :
      Decided env pool snap job (.finish .skipped none)
  | fail (hp : job.status = .pending) (plan : JobPlan) (h : job.plan = .ok plan)
      (hn : needsDone snap.jobs plan = true)
      (hr : shouldRun env plan snap.needs snap.ci ≠ .ok true ∨ ∃ e, routeFor pool plan = .error e)
      (t : Option String) : Decided env pool snap job (.finish .failure t)
  | queue (hp : job.status = .pending) (plan : JobPlan) (h : job.plan = .ok plan)
      (hn : needsDone snap.jobs plan = true)
      (hr : shouldRun env plan snap.needs snap.ci = .ok true) (route : Route)
      (hroute : routeFor pool plan = .ok route) :
      Decided env pool snap job (.queue plan route)

/-- **Every way `jobDecision` can go.** -/
theorem decided (env : Env) (pool : Pool) (snap : Snapshot) (job : JobRow) :
    Decided env pool snap job (jobDecision env pool snap job) := by
  unfold jobDecision
  split_ifs with hp
  · exact .busy hp
  · have hp : job.status = .pending := not_not.mp hp
    cases h : job.plan with
    | error e => exact .badPlan hp e h _
    | ok plan =>
      simp only
      split_ifs with hn
      · exact .unready hp plan h hn
      · have hn : needsDone snap.jobs plan = true := by simpa using hn
        cases hr : shouldRun env plan snap.needs snap.ci with
        | error e => exact .fail hp plan h hn (Or.inl fun hok => nomatch hr.symm.trans hok) _
        | ok b =>
          cases b with
          | false => exact .skip hp plan h hn hr
          | true =>
            cases hroute : routeFor pool plan with
            | error e => exact .fail hp plan h hn (Or.inr ⟨e, hroute⟩) _
            | ok route => exact .queue hp plan h hn hr route hroute

/-- A decision finishes a job for good. -/
theorem jobDecision_finish {s : JobStatus} {e : Option String}
    (h : jobDecision env pool snap job = .finish s e) : s = .failure ∨ s = .skipped := by
  have hd := decided env pool snap job
  rw [h] at hd
  cases hd with
  | badPlan | fail => exact Or.inl rfl
  | skip => exact Or.inr rfl

/-- A job is queued when it was pending and its needs were over. -/
theorem jobDecision_queue {plan : JobPlan} {route : Route}
    (h : jobDecision env pool snap job = .queue plan route) :
    job.plan = .ok plan ∧ needsDone snap.jobs plan = true ∧
      shouldRun env plan snap.needs snap.ci = .ok true := by
  have hd := decided env pool snap job
  rw [h] at hd
  cases hd with
  | queue _ _ hplan hn hr => exact ⟨hplan, hn, hr⟩

/-- A job is skipped when its needs were over and its guard was false. -/
theorem jobDecision_skip {e : Option String} (h : jobDecision env pool snap job = .finish .skipped e) :
    ∃ plan, job.plan = .ok plan ∧ needsDone snap.jobs plan = true ∧
      shouldRun env plan snap.needs snap.ci = .ok false := by
  have hd := decided env pool snap job
  rw [h] at hd
  cases hd with
  | skip _ plan hplan hn hr => exact ⟨plan, hplan, hn, hr⟩

/-- Without an `if:`, the guard is that no need failed. -/
theorem shouldRun_of_no_condition {plan : JobPlan} (h : plan.condition = none)
    (needs : NeedsContext) (ci : Json) : shouldRun env plan needs ci = .ok (!anyFailed plan needs) := by
  unfold shouldRun
  rw [h]

theorem anyFailed_iff (plan : JobPlan) (jobs : List JobRow) :
    anyFailed plan (needsContext jobs) = true ↔ ∃ n ∈ plan.needs, ∃ j ∈ jobs, j.baseId = n ∧
      (j.status = .failure ∨ j.status = .cancelled) := by
  simp only [anyFailed, List.any_eq_true, needsFailed_iff]

end HeyoCi
