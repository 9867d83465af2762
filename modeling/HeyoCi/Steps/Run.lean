import HeyoCi.Dispatch.Decide
import HeyoCi.Steps.Masker

/-!
# The steps of a job

What an execution does between the VM it got and the status it records, with what it appends to the
logs. The daemon, the guest, the actions and the calls of the store are outside: their answers are
inputs.

* `ExecOutput`, `splitOutputs`: the result of a command, and the outputs declared in it;
* `Logged`: a text as it is passed to `append_log`, by how it is made;
* `checkout`, `runStep`, `runLoop`, `runSteps`, `captureVmLog`: the parts of an execution.
-/

namespace HeyoCi

/-- The result of a command in the guest. -/
structure ExecOutput where
  output : String
  stdout : String
  stderr : String
  exitCode : Int
  deriving Repr, DecidableEq

namespace ExecOutput

/-- What the command wrote: interleaved where the daemon says so, else one stream after the other. -/
def combined (out : ExecOutput) : String :=
  if !out.output.isEmpty then out.output
  else if out.stderr.isEmpty then out.stdout
  else if !out.stdout.isEmpty && out.stdout.toList.getLast? ≠ some '\n'
  then out.stdout ++ "\n" ++ out.stderr
  else out.stdout ++ out.stderr

def succeeded (out : ExecOutput) : Bool := out.exitCode = 0

end ExecOutput

/-- A step's row id. -/
def Store.stepId (jobId : String) (idx : Nat) : String := s!"{jobId}.{idx}"

def outputMarker (stepId : String) : String := s!"::ci-output::{stepId}::"

/-- The output that a line after the marker declares. -/
def declared (line : String) : Option (String × String) :=
  (Text.splitOnce '=' line.toList).bind fun (k, v) =>
    let key := Text.trim (String.ofList k)
    if key.isEmpty then none else some (key, String.ofList v)

/-- The log of a step and the outputs it declared. -/
def splitOutputs (out : ExecOutput) (stepId : String) : String × Json.Obj :=
  let combined := out.combined
  match Text.splitLast (outputMarker stepId).toList combined.toList with
  | none => (combined, [])
  | some (before, tail) =>
    (String.ofList (Text.trimEnd before),
      ((Text.lines (String.ofList tail)).filterMap declared).foldl
        (fun map (k, v) => Json.Obj.insert k (.str v) map) [])

/-! ## Log texts -/

/-- A text passed to `append_log`. -/
inductive Logged where
  | plain (text : String)
  | masked (m : Masker) (text : String)
  /-- A masked error between two texts of the code. -/
  | framed (m : Masker) (before error after : String)
  deriving Repr, DecidableEq

def Logged.text : Logged → String
  | plain text => text
  | masked m text => m.mask text
  | framed m before error after => before ++ m.mask error ++ after

/-- A call of `append_log`: the step, and the text. -/
structure Append where
  stepId : String
  log : Logged
  deriving Repr, DecidableEq

/-! ## Checkout -/

/-- What the store answers about a step, where it can fail. -/
structure StepWrites where
  create : Except String Unit
  start : Except String Unit
  append : Except String Unit
  finish : Except String Unit

/-- What the outside answers to a checkout. -/
structure CheckoutCalls where
  writes : StepWrites
  workspaceDir : String
  /-- Where the submitted source is, if it is there. -/
  storedSource : Option String
  /-- Reading it gives its size. -/
  read : Except String Nat
  /-- The upload and the extraction in the guest. -/
  extract : Except String ExecOutput

def defaultWorkdir : String := "/workspace"

namespace StepWrites

variable (w : StepWrites)

/-- `append_log`, then `finish_step`, then what comes next. -/
def logged {β : Type} (next : Except DispatchError β) : Except DispatchError β :=
  match w.append, w.finish with
  | .ok (), .ok () => next
  | .error e, _ | .ok (), .error e => .error (.store e)

end StepWrites

/-- Put the submitted tree into the guest. -/
def checkout (plan : JobPlan) (runId jobId : String) (calls : CheckoutCalls) :
    List Append × Except DispatchError Unit :=
  let sid := s!"{jobId}.checkout"
  let workdir := plan.vm.workingDirectory.getD defaultWorkdir
  match calls.writes.create, calls.writes.start with
  | .error e, _ | .ok (), .error e => ([], .error (.store e))
  | .ok (), .ok () =>
    let failed := fun detail => ([⟨sid, .plain s!"[ci] {detail}\n"⟩],
      calls.writes.logged (.error (.checkout detail)))
    match calls.storedSource, calls.read, calls.extract with
    | none, _, _ =>
      failed s!"no submitted source is on disk for run {runId} under {calls.workspaceDir}"
    | some archive, .error e, _ => failed s!"the submitted source is missing at {archive}: {e}"
    | some _, .ok _, .error e => failed e
    | some _, .ok size, .ok out =>
      if out.succeeded then
        ([⟨sid, .plain s!"[ci] {size} bytes extracted into {workdir}\n{out.combined}"⟩],
          calls.writes.logged (.ok ()))
      else ([⟨sid, .plain out.combined⟩],
        calls.writes.logged (.error (.checkout s!"extracting the source exited {out.exitCode}")))

/-! ## The steps -/

/-- What the steps take from outside: the expressions. -/
structure Exprs where
  evalCondition : Json.Obj → String → Except String Bool
  substitute : Json.Obj → String → String

/-- What a step's expressions see beside the outputs of the steps before it. -/
structure JobScope where
  needs : NeedsContext
  ci : Json
  resolved : Resolved

/-- What the outside answers to one step. -/
structure StepCalls where
  isCancelled : Except String Bool
  writes : StepWrites
  action : Except String String
  exec : Except String ExecOutput

/-- What the loop over the steps carries. -/
structure StepsState where
  outputs : Json.Obj
  failed : Option String

/-- How a turn of the loop ends: out of the function, with the next step, or out of the loop. -/
inductive Turn where
  | leave (e : DispatchError)
  | next (st : StepsState)
  | stop (st : StepsState)

namespace JobScope

variable (scope : JobScope) (plan : JobPlan)

def stringMembers (members : List (String × String)) : Json :=
  .obj (members.map fun (k, v) => (k, .str v))

/-- The scopes of the expressions after the steps with these outputs. -/
def context (outputs : Json.Obj) : Json.Obj :=
  [("needs", scope.needs.toJson), ("steps", .obj outputs),
    ("secrets", stringMembers scope.resolved.secrets), ("vars", stringMembers scope.resolved.vars),
    ("ci", scope.ci)].foldl (fun ctx (k, v) => Json.Obj.insert k v ctx) plan.baseContext

/-- The same with the status functions. -/
def stepContext (st : StepsState) : Json.Obj :=
  Json.Obj.insert "__status" (.str (if st.failed.isSome then "failure" else "success"))
    (scope.context plan st.outputs)

end JobScope

section Steps

variable (exprs : Exprs) (plan : JobPlan) (scope : JobScope) (jobId : String)

/-- Whether a step runs. -/
def stepRuns (step : Step) (st : StepsState) : Except DispatchError Bool :=
  match step.condition with
  | some c => match exprs.evalCondition (scope.stepContext plan st) c with
    | .ok b => .ok b
    | .error e => .error (.condition e)
  | none => .ok st.failed.isNone

/-- `append_log`, then `finish_step`, then the end of the turn. -/
def StepWrites.turn (w : StepWrites) (t : Turn) : Turn :=
  match w.logged (.ok ()) with
  | .ok () => t
  | .error e => .leave e

/-- The body of the loop, once a step runs. -/
def runStarted (calls : StepCalls) (idx : Nat) (step : Step) (st : StepsState) :
    List Append × Turn :=
  let masker := scope.resolved.masker
  let sid := Store.stepId jobId idx
  let label := Text.debugStr (step.label idx)
  if step.run.isSome then match calls.exec with
    | .ok out =>
      let (text, outputs) := splitOutputs out sid
      let outcome := if out.succeeded then "success" else "failure"
      let entry := Json.obj [("outcome", .str outcome), ("outputs", .obj outputs)]
      let st := match step.id with
        | some id => { st with outputs := Json.Obj.insert id entry st.outputs }
        | none => st
      ([⟨sid, .masked masker text⟩], calls.writes.turn <|
        if !out.succeeded && !step.continueOnError
        then .stop { st with failed := some s!"step {label} exited {out.exitCode}" }
        else .next st)
    -- the command never ran, or the daemon lost it
    | .error e => ([⟨sid, .framed masker "\n[ci] " e "\n"⟩],
        calls.writes.turn (.stop { st with failed := some (masker.mask e) }))
  else match calls.action with
    | .ok note => ([⟨sid, .masked masker note⟩], calls.writes.turn (.next st))
    | .error e => ([⟨sid, .framed masker "[ci] " e "\n"⟩], calls.writes.turn <|
        if step.continueOnError then .next st
        else .stop { st with failed := some (masker.mask e) })

/-- One turn of the loop over the steps. -/
def runStep (calls : StepCalls) (idx : Nat) (step : Step) (st : StepsState) : List Append × Turn :=
  match calls.isCancelled, calls.writes.create with
  | .error e, _ | .ok false, .error e => ([], .leave (.store e))
  | .ok true, _ => ([], .leave (.cancelled plan.key))
  | .ok false, .ok () => match stepRuns exprs plan scope step st with
    | .error e => ([], .leave e)
    | .ok false => ([], match calls.writes.finish with
      | .ok () => .next st
      | .error e => .leave (.store e))
    | .ok true => match calls.writes.start with
      | .error e => ([], .leave (.store e))
      | .ok () => runStarted scope jobId calls idx step st

/-- The loop over the steps from one on. -/
def runLoop (calls : Nat → StepCalls) :
    List Step → Nat → StepsState → List Append × Except DispatchError StepsState
  | [], _, st => ([], .ok st)
  | step :: rest, idx, st => match runStep exprs plan scope jobId (calls idx) idx step st with
    | (logs, .leave e) => (logs, .error e)
    | (logs, .stop st) => (logs, .ok st)
    | (logs, .next st) =>
      let (logs', ended) := runLoop calls rest (idx + 1) st
      (logs ++ logs', ended)

/-- What is left of `run_steps` after the loop: the outputs of the job. -/
def jobOutputs (st : StepsState) : Except DispatchError Json.Obj :=
  match st.failed with
  | some reason => .error (.stepFailed reason)
  | none => .ok (plan.outputs.map fun (k, v) =>
      (k, .str (scope.resolved.masker.mask (exprs.substitute (scope.context plan st.outputs) v))))

/-- `run_steps`, once it has read what its expressions see and resolved the secrets. -/
def runSteps (calls : Nat → StepCalls) : List Append × Except DispatchError Json.Obj :=
  let (logs, ended) := runLoop exprs plan scope jobId calls plan.steps 0 ⟨[], none⟩
  (logs, ended.bind (jobOutputs exprs plan scope))

end Steps

/-! ## The console -/

/-- The VM's own console, as a step of the job. -/
def captureVmLog (jobId : String) (create : Except String Unit) (console : Except String String) :
    List Append :=
  match create with
  | .error _ => []
  | .ok () => [⟨s!"{jobId}.vmlog", .plain <| match console with
    | .ok text => if (Text.trim text).isEmpty
      then "[ci] the daemon reported no console output for this VM\n" else text
    | .error e => s!"[ci] could not read this VM's logs: {e}\n"⟩]

end HeyoCi
