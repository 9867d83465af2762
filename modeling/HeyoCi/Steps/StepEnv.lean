import Mathlib.Data.List.Induction
import Mathlib.Logic.Function.Basic
import HeyoCi.Expr.Substitute
import HeyoCi.Steps.Run

/-!
# The environment of a step

The `env:` of a job is substituted when the plan is made, with the scopes there are by then, and what
that leaves is substituted again when a step runs.

* `JobPlan.substituteMatrix`: the fields that are substituted in the plan;
* `stepEnv`: the environment of a step; `stepEnv_job`: what a key of the job's `env:` is in it;
* `SubstitutedOnce`: the step gets what one substitution makes of the job's text;
* **`stepEnv_once_of_misses`**: it does where the early substitution misses nothing, and does not
  where it misses one expression;
* `shifted_of_early`, `stepEnv_once_of_early`: expressions that name nothing of a later scope come
  out alike, and so they reach the step;
* `secret_lost`: a secret in the `env:` of a job.
-/

namespace HeyoCi

open HeyoCi.Expr

/-- A step with its `env:`. -/
structure StepBlock extends Step where
  env : List (String × String)
  deriving Repr, DecidableEq

/-- A map with every pair inserted. -/
def insertAll (map : String → Option String) (pairs : List (String × String)) :
    String → Option String :=
  pairs.foldl (fun map (k, v) => Function.update map k (some v)) map

/-- The value of a key. -/
def valueOf (pairs : List (String × String)) : String → Option String :=
  insertAll (fun _ => none) pairs

theorem insertAll_concat (map : String → Option String) (pairs : List (String × String))
    (kv : String × String) :
    insertAll map (pairs ++ [kv]) = Function.update (insertAll map pairs) kv.1 (some kv.2) := by
  rw [insertAll, List.foldl_append]
  rfl

/-- The value of a key is the one that is inserted last, if one is. -/
theorem insertAll_apply (map : String → Option String) (pairs : List (String × String)) (k : String) :
    insertAll map pairs k = (valueOf pairs k).or (map k) := by
  induction pairs using List.reverseRecOn with
  | nil => rfl
  | append_singleton pairs kv ih =>
    rw [valueOf, insertAll_concat, insertAll_concat]
    by_cases hk : k = kv.1
    · rw [hk, Function.update_self, Function.update_self, Option.some_or]
    · rw [Function.update_of_ne hk, Function.update_of_ne hk, ih, valueOf]

theorem valueOf_map (f : String → String) (pairs : List (String × String)) (k : String) :
    valueOf (pairs.map fun (k, v) => (k, f v)) k = (valueOf pairs k).map f := by
  induction pairs using List.reverseRecOn with
  | nil => rfl
  | append_singleton pairs kv ih =>
    rw [List.map_append, List.map_singleton, valueOf, valueOf, insertAll_concat, insertAll_concat]
    by_cases hk : k = kv.1
    · rw [hk, Function.update_self, Function.update_self, Option.map_some]
    · rw [Function.update_of_ne hk, Function.update_of_ne hk]
      exact ih

section StepEnv

variable {F : Type} (fl : Floats F)

/-- `substitute_matrix`: the scopes are those of the plan, the environment as it is written. -/
def JobPlan.substituteMatrix (job : JobPlan) : JobPlan :=
  let sub := substitute fl job.baseContext
  { job with
    target := { job.target with
      network := job.target.network.map sub
      node := job.target.node.map sub }
    vm := { job.vm with image := job.vm.image.map sub }
    env := job.env.map fun (k, v) => (k, sub v) }

def configEnv (plan : JobPlan) : List (String × String) :=
  [("CI", "true"), ("CI_JOB", plan.baseId), ("CI_JOB_KEY", plan.key)]

/-- `step_env`: the job's values over those of the code, and the step's over both. -/
def stepEnv (plan : JobPlan) (step : StepBlock) (ctx : Json.Obj) : String → Option String :=
  let sub := substitute fl ctx
  let env := insertAll (fun _ => none) (configEnv plan)
  let env := insertAll env (plan.env.map fun (k, v) => (k, sub v))
  insertAll env (step.env.map fun (k, v) => (k, sub v))

variable {fl}

/-- A value of the job's `env:` that the step does not set comes out of two substitutions. -/
theorem stepEnv_job {cell : JobPlan} {step : StepBlock} {ctx : Json.Obj} {k t : String}
    (ht : valueOf cell.env k = some t) (hstep : valueOf step.env k = none) :
    stepEnv fl (cell.substituteMatrix fl) step ctx k =
      some (substitute fl ctx (substitute fl cell.baseContext t)) := by
  have henv : (cell.substituteMatrix fl).env =
      cell.env.map fun (k, v) => (k, substitute fl cell.baseContext v) := rfl
  rw [stepEnv, insertAll_apply, valueOf_map, hstep, Option.map_none, Option.none_or, insertAll_apply,
    valueOf_map, henv, valueOf_map, ht, Option.map_some, Option.map_some, Option.some_or]

theorem substitute_substitute {early late : Json.Obj} {t : String} :
    substitute fl late (substitute fl early t) = substitute fl late t ↔
      substituteChars fl late (substituteChars fl early t.toList) =
        substituteChars fl late t.toList := by
  rw [substitute, substitute, substitute, String.toList_ofList, String.ofList_inj]

/-- A text without expressions is the same before and after. -/
theorem misses_of_closed {early late : Json.Obj} {cs : List Char} (h : ¬ opening <:+: cs) :
    misses fl early late cs = [] := by
  have hchars : ∀ p ∈ pieces cs, ∃ c, p = .char c := by
    rw [pieces_of_closed h]
    intro p hp
    obtain ⟨c, -, rfl⟩ := List.mem_map.mp hp
    exact ⟨c, rfl⟩
  have hsame : substituteChars fl early cs = cs := by
    apply substituteChars_of_live
    exact live_of_closed h
  have hshifted : shifted fl early late cs = [] := by
    refine List.filter_eq_nil_iff.mpr fun p hp => ?_
    obtain ⟨c, rfl⟩ := hchars p hp
    simp [render]
  rw [misses, hshifted, hsame, live_of_closed h, List.append_nil]

variable (fl) (cell : JobPlan) (scope : JobScope) (st : StepsState)

/-- What the expressions of a step see. -/
def runContext : Json.Obj := scope.stepContext (cell.substituteMatrix fl) st

/-- The step gets what the text of the job comes out as, substituted once with all scopes. -/
def SubstitutedOnce (step : StepBlock) (k t : String) : Prop :=
  stepEnv fl (cell.substituteMatrix fl) step (runContext fl cell scope st) k =
    some (substitute fl (runContext fl cell scope st) t)

/-- What the substitution in the plan gets wrong: the expressions that come out differently in the
plan and in the step, and those in the text that it leaves. -/
def envMisses (t : String) : List Piece :=
  misses fl cell.baseContext (runContext fl cell scope st) t.toList

variable {fl cell scope st}

/-- **A job's value comes out as substituted once if the plan misses nothing, and comes out otherwise
if it misses one expression.** -/
theorem stepEnv_once_of_misses {step : StepBlock} {k t : String}
    (ht : valueOf cell.env k = some t) (hstep : valueOf step.env k = none) :
    (envMisses fl cell scope st t = [] → SubstitutedOnce fl cell scope st step k t) ∧
      ((envMisses fl cell scope st t).length = 1 →
        ¬ SubstitutedOnce fl cell scope st step k t) := by
  have honce : SubstitutedOnce fl cell scope st step k t ↔
      substituteChars fl (runContext fl cell scope st)
          (substituteChars fl cell.baseContext t.toList) =
        substituteChars fl (runContext fl cell scope st) t.toList := by
    rw [SubstitutedOnce, stepEnv_job ht hstep, Option.some_inj, substitute_substitute]
  rw [honce]
  exact ⟨substitute_twice, substitute_twice_ne⟩

/-! ## Expressions that a plan can evaluate -/

/-- The scopes that are not there in a plan, or not as they are in a step, and the functions that
read them. -/
def lateNames : List String := ["env", "needs", "steps", "secrets", "vars", "ci", "__status",
  "changed", "success", "failure", "cancelled"]

theorem get_runContext {name : String} (h : name ∉ lateNames) :
    Json.Obj.get (runContext fl cell scope st) name = Json.Obj.get cell.baseContext name := by
  simp only [lateNames, List.mem_cons, List.not_mem_nil, or_false, not_or] at h
  obtain ⟨henv, hneeds, hsteps, hsecrets, hvars, hci, hstatus, -⟩ := h
  unfold runContext JobScope.stepContext JobScope.context
  simp only [List.foldl_cons, List.foldl_nil]
  rw [Json.Obj.get_insert_of_ne hstatus, Json.Obj.get_insert_of_ne hci,
    Json.Obj.get_insert_of_ne hvars, Json.Obj.get_insert_of_ne hsecrets,
    Json.Obj.get_insert_of_ne hsteps, Json.Obj.get_insert_of_ne hneeds]
  have henv' : (name == "env") = false := beq_false_of_ne henv
  simp only [JobPlan.baseContext, Json.Obj.get, List.lookup_cons, henv']
  rfl

/-- The matrix and the job mean in a plan what they mean in a step, and so do most functions. -/
theorem sameName_of_early {name : String} (h : name ∉ lateNames) :
    SameName fl cell.baseContext (runContext fl cell scope st) name := by
  constructor
  · unfold named
    split
    all_goals try rfl
    rw [lookup, lookup, get_runContext h]
  · intro args
    unfold call
    simp only
    split
    all_goals try rfl
    all_goals exact absurd (by decide) h

/-- **A text whose expressions name nothing that comes later comes out of a plan as of a step.** -/
theorem shifted_of_early {t : String} (h : ∀ body, .expr body ∈ pieces t.toList →
    ∀ ts, tokenize fl body = .ok ts → ∀ name, .ident name ∈ ts → name ∉ lateNames) :
    shifted fl cell.baseContext (runContext fl cell scope st) t.toList = [] := by
  refine List.filter_eq_nil_iff.mpr fun p hp => ?_
  cases p with
  | char c => simp [render]
  | expr body =>
    have heval : eval fl cell.baseContext body = eval fl (runContext fl cell scope st) body :=
      eval_congr fun ts hts name hmem => sameName_of_early (h body hp ts hts name hmem)
    simp [render, heval]

/-- **A value of the matrix and the job reaches the step**, if it brings no expression with it. -/
theorem stepEnv_once_of_early {step : StepBlock} {k t : String}
    (ht : valueOf cell.env k = some t) (hstep : valueOf step.env k = none)
    (hearly : ∀ body, .expr body ∈ pieces t.toList → ∀ ts, tokenize fl body = .ok ts →
      ∀ name, .ident name ∈ ts → name ∉ lateNames)
    (hleft : ¬ opening <:+: substituteChars fl cell.baseContext t.toList) :
    SubstitutedOnce fl cell scope st step k t := by
  apply (stepEnv_once_of_misses ht hstep).1
  unfold envMisses misses
  rw [shifted_of_early hearly, live_of_closed hleft, List.append_nil]

end StepEnv

section Token

/-- Whole numbers for floats. -/
private def wholeNumbers : Floats Int where
  parse s := (parseUsize s).map Int.ofNat
  debug n := toString n ++ ".0"
  zero := 0
  one := 1
  eq a b := a = b
  lt a b := a < b
  le a b := a ≤ b
  integral n := if n.natAbs < 9007199254740992 then some n else none
  toNumber _ := none
  ofNumber m e := if e = 0 then some m else none
  toText
    | .num m _ => toString m
    | _ => ""
  ofText _ := none

private def tokenCell (mtx : Json.Obj) (value : String) : JobPlan where
  key := "build"
  baseId := "build"
  display := "build"
  target := ⟨none, none, none, true⟩
  fallback := .none
  vm := ⟨some "ubuntu", none, true, none⟩
  needs := []
  condition := none
  mtx := mtx
  env := [("VALUE", value)]
  outputs := []
  continueOnError := false
  steps := []
  maxParallel := none
  failFast := true

private def tokenScope : JobScope where
  needs := []
  ci := .obj []
  resolved := ⟨[("TOKEN", "s3cr3t")], []⟩

private def bareStep : StepBlock where
  name := none
  id := none
  condition := none
  uses := none
  run := some "make"
  continueOnError := false
  env := []

private def matrixCell : JobPlan :=
  tokenCell [("target", .str "x86_64")] "$\x7b\x7b matrix.target \x7d\x7d"

/-- A value of the matrix reaches the step. -/
theorem matrix_value_once : SubstitutedOnce wholeNumbers matrixCell tokenScope ⟨[], none⟩ bareStep
    "VALUE" "$\x7b\x7b matrix.target \x7d\x7d" :=
  (stepEnv_once_of_misses (by decide) (by decide)).1 (by decide +kernel)

private def secretCell : JobPlan := tokenCell [] "$\x7b\x7b secrets.TOKEN \x7d\x7d"

/-- A secret in the `env:` of a job reaches the step as the empty text. -/
theorem secret_lost : ¬ ∀ (F : Type) (fl : Floats F) (cell : JobPlan) (scope : JobScope)
    (st : StepsState) (step : StepBlock) (k t : String), valueOf cell.env k = some t →
    valueOf step.env k = none → SubstitutedOnce fl cell scope st step k t := by
  intro hall
  have ht : valueOf secretCell.env "VALUE" = some "$\x7b\x7b secrets.TOKEN \x7d\x7d" := by
    decide
  have honce := hall Int wholeNumbers secretCell tokenScope ⟨[], none⟩ bareStep _ _ ht
    (by decide)
  rw [SubstitutedOnce, stepEnv_job ht (by decide), Option.some_inj] at honce
  exact absurd honce (by decide +kernel)

/-- A text of the matrix is evaluated once more. -/
example : stepEnv wholeNumbers
    ((tokenCell [("note", .str "$\x7b\x7b secrets.TOKEN \x7d\x7d")]
      "$\x7b\x7b matrix.note \x7d\x7d").substituteMatrix wholeNumbers) bareStep
    (tokenScope.stepContext secretCell ⟨[], none⟩) "VALUE" = some "s3cr3t" := by decide +kernel

end Token

end HeyoCi
