import HeyoCi.Json
import HeyoCi.Text

/-!
# The plan of a run

* `Target`, `Fallback`: where a job asks to run (`uses:`, `fallback:`);
* `VmSpec`, `ImageBuild`, `Step`: the parts of a job the executor acts on;
* `JobPlan`: one dispatchable unit, as it is stored on the job's row;
* `Plan`: the jobs of one workflow file. That every `needs` entry names a job with at least one
  cell is a field: planning refuses a workflow where it fails.
-/

namespace HeyoCi

/-- The value of `uses:`. -/
structure Target where
  network : Option String
  node : Option String
  vm : Option String
  /-- `uses: default`, the host of the orchestrator. -/
  isLocal : Bool
  deriving Repr, DecidableEq

/-- Whether the steps run in a VM that already exists. -/
def Target.isExistingVm (t : Target) : Bool := t.vm.isSome

/-- What to do when the named runner cannot take the job. -/
inductive Fallback where
  | none
  | any
  deriving Repr, DecidableEq

/-- `vm.build`: an image built from a Dockerfile of the submitted tree. -/
structure ImageBuild where
  dockerfile : String
  context : Option String
  sizeMb : Option Nat
  deriving Repr, DecidableEq

/-- The parts of `vm:` that decide how a job gets and returns its VM, and where its source goes. -/
structure VmSpec where
  image : Option String
  build : Option ImageBuild
  reuse : Bool
  workingDirectory : Option String
  deriving Repr, DecidableEq

/-- A step of a job. -/
structure Step where
  name : Option String
  id : Option String
  condition : Option String
  uses : Option String
  run : Option String
  continueOnError : Bool
  deriving Repr, DecidableEq

/-- What a step is called on a page, at its place in the list. -/
def Step.label (step : Step) (index : Nat) : String :=
  match step.name, step.uses, step.run with
  | some n, _, _ => n
  | none, some u, _ => u
  | none, none, some r =>
    let first := ((Text.lines r).find? fun l => !(Text.trim l).isEmpty).getD ""
    Text.truncate (Text.trim first) 60
  | none, none, none => s!"step {index + 1}"

/-- One job, or one cell of a job's matrix. -/
structure JobPlan where
  key : String
  baseId : String
  display : String
  target : Target
  fallback : Fallback
  vm : VmSpec
  /-- The base ids this job waits for. -/
  needs : List String
  condition : Option String
  mtx : Json.Obj
  env : List (String × String)
  outputs : List (String × String)
  continueOnError : Bool
  steps : List Step
  /-- Cells of the base job that may run at once, when that is limited. -/
  maxParallel : Option Nat
  failFast : Bool
  deriving Repr, DecidableEq

/-- The jobs of a workflow file. -/
structure Plan where
  workflowPath : String
  workflowName : Option String
  jobs : List JobPlan
  /-- Every need has a cell. -/
  needs_cells : ∀ j ∈ jobs, ∀ n ∈ j.needs, ∃ c ∈ jobs, c.baseId = n
  deriving DecidableEq

end HeyoCi
