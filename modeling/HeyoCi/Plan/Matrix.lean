import Mathlib.Data.List.Sort
import HeyoCi.Workflow.File

/-!
# The cells of a matrix

* `PlanError`: why a workflow cannot be planned;
* `MatrixParts`, `readMatrix`: the axes of `strategy.matrix`, its `include:` and its `exclude:`;
* `product`, `excludeFrom`, `includeInto`: the combinations;
* `expandMatrix`: one map for each of them.
-/

namespace HeyoCi

inductive PlanError where
  | workflow (detail : String)
  | badMatrix (job detail : String)
  | emptyMatrix (job : String)
  | unsatisfiable (names : List String)
  deriving Repr, DecidableEq

def PlanError.display : PlanError → String
  | workflow detail => detail
  | badMatrix job detail => s!"job {Text.debugStr job} has an invalid matrix: {detail}"
  | emptyMatrix job => s!"job {Text.debugStr job} has a matrix that excludes every combination, " ++
      "so it would never run"
  | unsatisfiable names => "these jobs can never start because their dependencies produced no " ++
      s!"jobs: {Text.join names}"

/-- What is written under `strategy.matrix`. -/
structure MatrixParts where
  axes : List (String × List Json)
  included : List Json.Obj
  excluded : List Json.Obj

section

variable {Y : Type} (y : YamlCrate Y) (jobId : String)

/-- `yaml_map_to_json`. -/
def yamlMapToJson (v : Y) : Option Json.Obj := (y.asMapping v).map fun entries =>
  entries.foldl (fun map (k, v) => match y.asStr k with
    | some k => Json.Obj.insert k (y.toJson v) map
    | none => map) []

/-- One entry of the matrix. -/
def readMatrixEntry (parts : MatrixParts) (entry : Y × Y) : Except PlanError MatrixParts :=
  match y.asStr entry.1, y.asSequence entry.2 with
  | none, _ => .error (.badMatrix jobId "a matrix axis name must be a string")
  | some "include", some seq => .ok { parts with included := seq.filterMap (yamlMapToJson y) }
  | some "exclude", some seq => .ok { parts with excluded := seq.filterMap (yamlMapToJson y) }
  | some name, some items => .ok { parts with axes := parts.axes ++ [(name, items.map y.toJson)] }
  | some name, none => .error (.badMatrix jobId <|
      if name = "include" ∨ name = "exclude" then s!"`{name}` must be a list of mappings"
      else s!"matrix axis {Text.debugStr name} must be a list of values")

/-- The entries of the matrix, in their order. -/
def readMatrix (mtx : Y) : Except PlanError MatrixParts := match y.asMapping mtx with
  | none => .error (.badMatrix jobId "`strategy.matrix` must be a mapping of axes")
  | some entries => entries.foldlM (readMatrixEntry y jobId) ⟨[], [], []⟩

/-- The combinations of the axes, the last one varying first. -/
def product : List (String × List Json) → List Json.Obj → Except PlanError (List Json.Obj)
  | [], combos => .ok combos
  | (name, values) :: axes, combos =>
    if values.isEmpty then
      .error (.badMatrix jobId s!"matrix axis {Text.debugStr name} is empty")
    else product axes (combos.flatMap fun base => values.map fun v => Json.Obj.insert name v base)

/-- `matches_subset`: the entry says nothing else about the keys of the combination. -/
def matchesSubset (combo entry : Json.Obj) : Bool := entry.all fun (k, v) =>
  match Json.Obj.get combo k with
  | some w => w = v
  | none => true

def excludeFrom (excluded combos : List Json.Obj) : List Json.Obj :=
  combos.filter fun c => !excluded.any (matchesSubset c)

/-- An entry extends the combinations it matches, or is one of its own. -/
def includeInto (combos : List Json.Obj) (entry : Json.Obj) : List Json.Obj :=
  if combos.any fun c => matchesSubset c entry then
    combos.map fun c => if matchesSubset c entry then Json.Obj.extend c entry else c
  else combos ++ [entry]

/-- `expand_matrix`. -/
def expandMatrix (job : Job Y) : Except PlanError (List Json.Obj) :=
  match job.strategy.bind (·.mtx) with
  | none => .ok [[]]
  | some mtx => do
    let parts ← readMatrix y jobId mtx
    let axes := parts.axes.insertionSort fun a b => a.1 ≤ b.1
    let combos ← product jobId axes [[]]
    let combos := parts.included.foldl includeInto (excludeFrom parts.excluded combos)
    if combos.isEmpty then .error (.emptyMatrix jobId) else .ok combos

end

end HeyoCi
