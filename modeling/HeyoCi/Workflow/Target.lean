import HeyoCi.Plan

/-!
# Where a job asks to run

* `WorkflowError`: why a workflow file is refused;
* `Target.parse`: the value of `uses:`; `Target.any`: a job without one.
-/

namespace HeyoCi

/-- Why a workflow file is refused. -/
inductive WorkflowError where
  | yaml (path detail : String)
  | noJobs (path : String)
  | duplicateJob (path : String)
  | badJobId (id : String)
  /-- The block under `on: submit:` cannot be read. -/
  | badTriggerBlock (path detail : String)
  | badFilter (path field detail : String)
  /-- Two filters that would need an order to combine. -/
  | conflictingFilter (path a b : String)
  | badJob (path job detail : String)
  | badVm (job detail : String)
  | badUses (job detail : String)
  | emptyUses
  | emptyRunner (raw : String)
  | usesTooDeep (raw : String)
  /-- A VM without the host that holds it. -/
  | vmWithoutNode (raw : String)
  | unknownNeed (job need : String)
  | selfNeed (job : String)
  | cycle (path : List String)
  | noSteps (job : String)
  | stepRunAndUses (job step : String)
  | stepNeitherRunNorUses (job step : String)
  deriving Repr, DecidableEq

open Text in
def WorkflowError.display : WorkflowError → String
  | yaml path detail => s!"{path} is not valid workflow YAML: {detail}"
  | noJobs path => s!"{path} declares no jobs"
  | duplicateJob path => s!"{path} declares the same job id twice"
  | badTriggerBlock path detail => s!"the `on: submit:` block in {path} is malformed: {detail}. " ++
      "The filters are `branches`, `branches-ignore`, `paths` and `paths-ignore`, each a list of " ++
      "glob patterns."
  | badFilter path field detail => s!"`on: submit: {field}:` in {path} — {detail}"
  | conflictingFilter path a b => s!"{path} sets both `{a}:` and `{b}:` under `on: submit:`. " ++
      "Which wins would depend on the order the patterns happen to be written in, so write one " ++
      "or the other."
  | badJobId id => s!"job id {debugStr id} must be 1-64 characters of letters, digits, '_' or " ++
      "'-'; it becomes a NATS subject token and part of a VM name"
  | badJob path job detail => s!"job {debugStr job} in {path} is malformed: {detail}"
  | badVm job detail => s!"job {debugStr job} has an invalid `vm:` — {detail}"
  | badUses job detail => s!"job {debugStr job} has an invalid `uses:` — {detail}"
  | emptyUses => "`uses:` must name a network, as `<network>` or `<network>/<runner>`"
  | emptyRunner raw => s!"`uses: {raw}` has an empty segment; write `<network>`, " ++
      "`<network>/<node>`, or `<network>/<node>/<vm>`"
  | usesTooDeep raw => s!"`uses: {raw}` has more than three segments. The deepest form is " ++
      "`<network>/<node>/<vm>`, which names an existing VM on a host; `default` names the host " ++
      "this CI runs on."
  | vmWithoutNode raw => s!"`uses: {raw}` names a VM but not the host holding it. A sandbox " ++
      "does not record its host, so write `<network>/<node>/<vm>` — otherwise every host in the " ++
      "network has to be interrogated to find it."
  | unknownNeed job need =>
    s!"job {debugStr job} needs {debugStr need}, which no job in this workflow declares"
  | selfNeed job => s!"job {debugStr job} needs itself"
  | cycle path =>
    let arrows := " -> ".intercalate path
    s!"jobs form a `needs` cycle: {arrows}"
  | noSteps job => s!"job {debugStr job} has no steps"
  | stepRunAndUses job step => s!"step {debugStr step} in job {debugStr job} sets both `run:` " ++
      "and `uses:`; a step is one or the other"
  | stepNeitherRunNorUses job step =>
    s!"step {debugStr step} in job {debugStr job} sets neither `run:` nor `uses:`"

namespace Target

/-- The value of `uses:` that means the host of the orchestrator. -/
def defaultNode : String := "default"

/-- A job without `uses:`. -/
def any : Target := ⟨none, none, none, false⟩

/-- The second part of a path, where `*` means any host. -/
def parseNode (raw : String) : Option String → Except WorkflowError (Option String)
  | none | some "*" => .ok none
  | some "" => .error (.emptyRunner raw)
  | some n => .ok (some n)

/-- The third part of a path. -/
def parseVm (raw : String) : Option String → Except WorkflowError (Option String)
  | none => .ok none
  | some "" | some "*" => .error (.emptyRunner raw)
  | some v => .ok (some v)

/-- `Target::parse`. -/
def parse (raw : String) : Except WorkflowError Target :=
  let raw := Text.trim raw
  if raw.isEmpty then .error .emptyUses
  else if Text.eqIgnoreAsciiCase raw defaultNode then .ok ⟨none, none, none, true⟩
  else
    let parts := (raw.toList.splitOn '/').map fun part => Text.trim (String.ofList part)
    if parts.length > 3 then .error (.usesTooDeep raw)
    else
      let network := parts.headD ""
      if network.isEmpty then .error .emptyUses
      else match parseNode raw parts[1]?, parseVm raw parts[2]? with
        | .error e, _ | .ok _, .error e => .error e
        | .ok none, .ok (some _) => .error (.vmWithoutNode raw)
        | .ok node, .ok vm => .ok ⟨some network, node, vm, false⟩

example : (parse "net / * ").toOption = some ⟨some "net", none, none, false⟩ := by decide

end Target

end HeyoCi
