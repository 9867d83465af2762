import HeyoCi.Dispatch.Place
import HeyoCi.Lib.Loop
import HeyoCi.Store.Statements
import HeyoCi.Submit.Objects

/-!
# From a submit request to its runs

`POST /api/submit` settles who is asking before it reads the body, refuses a payload that names
another repository, and hands the rest to the dispatcher, which creates a run for every workflow
file that admits the commit.

* `SubmitRequest`, `Credential`: the payload, and how the request proved itself;
* `Intake`: the submitted tree and the components around the dispatcher, as they answer;
* `assignNetwork`: the network of every job, or why the submit is refused;
* `sources`, `submitFile`, `submit`: `Dispatcher::submit`, with the runs it creates;
* `Web`, `authenticateSubmit`, `handleSubmit`: the handler.
-/

namespace HeyoCi

/-- The payload of `git submit`. -/
structure SubmitRequest where
  repositoryUrl : String
  repositoryName : String
  gitRef : String
  before : String
  after : String
  workflowId : Option String
  deriving Repr

def SubmitRequest.branch (req : SubmitRequest) : String :=
  (Text.stripPrefix "refs/heads/" req.gitRef).getD req.gitRef

/-- A parsed workflow file, by what a submit asks of it. -/
structure WorkflowFile where
  on : List String
  admits : String → Changes → Except String Unit
  plan : Except String Plan

/-- The submitted tree, the parser and the writes, as they answer this request. -/
structure Intake where
  materialize : Except DispatchError Unit
  changedPaths : Changes
  findWorkflows : String → Except DispatchError (List (String × String))
  parse : String → String → Except String WorkflowFile
  /-- The `k`-th id that is minted; the first is also the name of the workspace. -/
  newId : Nat → String
  copyTree : String → Except DispatchError Unit
  createRun : String → Except DispatchError Unit
  advanceRun : String → Except DispatchError Unit

/-- A run that was created. -/
structure Recorded where
  runId : String
  request : RunRequest
  plan : Plan

/-! ## Networks -/

/-- The plan with other targets. -/
def Plan.retarget (plan : Plan) (f : JobPlan → Target) : Plan where
  workflowPath := plan.workflowPath
  workflowName := plan.workflowName
  jobs := plan.jobs.map fun job => { job with target := f job }
  needs_cells := by
    intro j hj n hn
    obtain ⟨job, hjob, rfl⟩ := List.mem_map.mp hj
    obtain ⟨cell, hcell, hid⟩ := plan.needs_cells job hjob n hn
    exact ⟨_, List.mem_map_of_mem hcell, hid⟩

/-- The target of a job that may name no network, and a warning when its host is not online. -/
def resolveTarget (pool : Pool) (runnerWait : Nat) (defaultNetwork : Option String) (job : JobPlan) :
    Except DispatchError (Target × List String) :=
  let target := if job.target.network.isNone && !job.target.isLocal && defaultNetwork.isSome
    then { job.target with network := defaultNetwork } else job.target
  (place pool { job with target := target }).map fun placement =>
    ({ target with
        network := some placement.network.networkName
        node := (placement.node.map (·.name)) <|> target.node },
      (placement.node.filter fun node => !node.status.isDispatchable).toList.map fun node =>
        s!"{job.key} is pinned to {node.name} ({node.status.asStr}), which is not online. The job " ++
          "will wait on that host's queue and run when it comes back, or fail after " ++
          s!"{runnerWait}s.")

/-- `assign_network`. -/
def assignNetwork (pool : Pool) (runnerWait : Nat) (defaultNetwork : Option String) (plan : Plan) :
    Except DispatchError (Plan × List String) :=
  (plan.jobs.mapM (resolveTarget pool runnerWait defaultNetwork)).map fun resolved =>
    (plan.retarget fun job => match resolveTarget pool runnerWait defaultNetwork job with
      | .ok (target, _) => target
      | .error _ => job.target, resolved.flatMap (·.2))

/-! ## The dispatcher -/

/-- Where a submit takes workflow files from. -/
structure Source where
  id : Option String
  pattern : String
  network : Option String
  deriving Repr

/-- Not blank. -/
def nonBlank (s : Option String) : Option String := s.filter fun t => !Text.isBlank t

/-- The objects a request is about. -/
def matchedObjects (objects : WorkflowSet) (req : SubmitRequest) (repoUrl : String) :
    List WorkflowObject := match req.workflowId with
  | some id => (objects.find id).toList
  | none => objects.forRepo repoUrl

/-- One source for every object, or one with the defaults. -/
def sources (defaultWorkflowPath : String) (repo : Option Repo) (matched : List WorkflowObject) :
    List Source :=
  if matched.isEmpty then
    [{ id := none
       network := nonBlank (repo.bind (·.network))
       pattern := (nonBlank (repo.bind (·.workflowPath))).getD defaultWorkflowPath }]
  else matched.map fun w =>
    { id := some w.id
      pattern := w.path
      network := nonBlank (nonBlank (some w.network) <|> repo.bind (·.network)) }

/-- How far a submit has got. -/
structure Progress where
  created : List Recorded
  runIds : List String
  patternsTried : List String
  skipped : List String
  warnings : List String

/-- What a submit produced. -/
structure Submitted where
  runIds : List String
  warnings : List String
  deriving Repr

/-- The parts of the configuration a submit reads. -/
structure SubmitConfig where
  defaultWorkflowPath : String
  runnerWait : Nat

section Submit

variable (cfg : SubmitConfig) (pool : Pool) (intake : Intake) (req : SubmitRequest)
  (repo : Option Repo)

/-- The URL a run is recorded against. -/
def recordedUrl : String := match repo with
  | some r => r.url
  | none => req.repositoryUrl

/-- What `create_run` is asked to record for a source. -/
def runRequest (source : Source) : RunRequest where
  workflowId := (source.id <|> req.workflowId).getD (match repo with
    | some r => r.name
    | none => req.repositoryName)
  repoId := repo.map (·.id)
  repoUrl := recordedUrl req repo
  gitRef := req.gitRef
  sha := req.after
  beforeSha := req.before
  changes := intake.changedPaths

/-- The run of a workflow file that admits the commit. -/
def startRun (source : Source) (plan : Plan) (p : Progress) : Progress × Option DispatchError :=
  let runId := intake.newId p.runIds.length
  match if p.runIds.isEmpty then .ok () else intake.copyTree runId with
  | .error e => (p, some e)
  | .ok () => match intake.createRun runId with
    | .error e => (p, some e)
    | .ok () =>
      let p := { p with created := p.created ++ [⟨runId, runRequest intake req repo source, plan⟩] }
      match intake.advanceRun runId with
      | .error e => (p, some e)
      | .ok () => ({ p with runIds := p.runIds ++ [runId] }, none)

/-- One workflow file. -/
def submitFile (source : Source) (file : String × String) (p : Progress) :
    Progress × Option DispatchError :=
  match intake.parse file.1 file.2 with
  | .error e => (p, some (.workflow e))
  | .ok wf => if !wf.on.contains "submit" then (p, none)
    else match wf.admits req.branch intake.changedPaths with
    | .error why => ({ p with skipped := p.skipped ++ [s!"{file.1}: {why}"] }, none)
    | .ok () => match wf.plan with
      | .error e => (p, some (.workflow e))
      | .ok plan => match assignNetwork pool cfg.runnerWait source.network plan with
        | .error e => (p, some e)
        | .ok (plan, warnings) =>
          startRun intake req repo source plan { p with warnings := p.warnings ++ warnings }

/-- The workflow files of a source. -/
def submitSource (source : Source) (p : Progress) : Progress × Option DispatchError :=
  match intake.findWorkflows source.pattern with
  | .error e => (p, some e)
  | .ok files => Loop.untilError (submitFile cfg pool intake req repo source) files
      { p with patternsTried := p.patternsTried ++ [source.pattern] }

/-- Why a submit that names an object is refused. -/
def unknownObject (id : String) : DispatchError :=
  .workflow (s!"no workflow object {Text.debugStr id} is registered. " ++
    "`serverctl get workflows` lists what is.")

/-- What a submit that was not refused answers. -/
def Progress.answer (p : Progress) : Except DispatchError Submitted :=
  if p.runIds.isEmpty && p.skipped.isEmpty then
    .error (.trigger ("no workflow files matched " ++ Text.debugStr (Text.join p.patternsTried ++
      " (nothing matched, or nothing triggering on `submit`)") ++ " in the submitted tree"))
  else .ok ⟨p.runIds, p.warnings ++ p.skipped.map fun s => s!"no run started — {s}"⟩

/-- `Dispatcher::submit`, with the runs it creates. -/
def submit (objects : WorkflowSet) : List Recorded × Except DispatchError Submitted :=
  match intake.materialize with
  | .error e => ([], .error e)
  | .ok () =>
    let matched := matchedObjects objects req (recordedUrl req repo)
    match req.workflowId.filter fun _ => matched.isEmpty && objects.loaded with
    | some id => ([], .error (unknownObject id))
    | none =>
      let done := Loop.untilError (submitSource cfg pool intake req repo)
        (sources cfg.defaultWorkflowPath repo matched) ⟨[], [], [], [], []⟩
      (done.1.created, match done.2 with
        | some e => .error e
        | none => done.1.answer)

end Submit

/-! ## The handler -/

/-- How a submit proved it may start a build. -/
inductive Credential where
  | repo (r : Repo)
  | shared

/-- What the handler asks of the store and of the rest of the server. -/
structure Web where
  authenticateRepoToken : String → Except String (Option Repo)
  repoByUrl : String → Except String (Option Repo)
  verifySignature : String → Option String → Except (Nat × String) Unit
  decode : String → Except String SubmitRequest
  requireRepoToken : Bool
  publicUrl : String

structure Headers where
  authorization : Option String
  signature : Option String
  deriving Repr

inductive Response where
  | error (status : Nat) (message : String)
  | accepted (runs : List String) (url : String) (warnings : List String)
  deriving Repr

/-- The `Bearer` a submit token arrives as. -/
def bearer (headers : Headers) : Option String := headers.authorization.bind fun value =>
  let cs := (Text.trim value).toList
  let scheme := String.ofList (cs.takeWhile (· ≠ ' '))
  let token := Text.trim (String.ofList ((cs.dropWhile (· ≠ ' ')).drop 1))
  if cs.contains ' ' && Text.eqIgnoreAsciiCase scheme "bearer" && !token.isEmpty then some token
  else none

/-- Whether a submit may proceed, decided before its body is parsed. -/
def authenticateSubmit (web : Web) (headers : Headers) (body : String) :
    Except Response Credential := match bearer headers with
  | some token => match web.authenticateRepoToken token with
    | .ok (some repo) => .ok (.repo repo)
    | .ok none => .error (.error 401
        ("that submit token is not valid for any registered repository. Register the repository " ++
          s!"at {web.publicUrl}/repos, then `git config ci.token <token>`."))
    | .error _ => .error (.error 500
        "could not check that submit token; the database is unreachable")
  | none =>
    if web.requireRepoToken then .error (.error 401
      ("this server accepts only per-repository submit tokens (CI_REQUIRE_REPO_TOKEN is set). " ++
        s!"Register the repository at {web.publicUrl}/repos, then `git config ci.token <token>`."))
    else match web.verifySignature body headers.signature with
      | .ok () => .ok .shared
      | .error (status, e) => .error (.error status e)

/-- The registration a submit is for. -/
def registration (web : Web) (req : SubmitRequest) : Credential → Option Repo
  | .repo r => some r
  | .shared => if Text.isBlank req.repositoryUrl then none
    else match web.repoByUrl req.repositoryUrl with
      | .ok r => r.filter (·.enabled)
      | .error _ => none

/-- The payload names another repository than the registration. -/
def misdirected (repo : Repo) (req : SubmitRequest) : Bool :=
  !Text.isBlank req.repositoryUrl && !Repos.sameRepo repo.url req.repositoryUrl

/-- `POST /api/submit`, with the runs it creates. -/
def handleSubmit (web : Web) (cfg : SubmitConfig) (pool : Pool) (objects : WorkflowSet)
    (intake : Intake) (headers : Headers) (body : String) : Response × List Recorded :=
  match authenticateSubmit web headers body with
  | .error response => (response, [])
  | .ok credential => match web.decode body with
    | .error e => (.error 400 s!"malformed submit: {e}", [])
    | .ok req =>
      let repo := registration web req credential
      match repo.filter fun r => misdirected r req with
      | some r => (.error 403 (s!"this submit token is registered to {r.url}, but the submit is for " ++
          s!"{req.repositoryUrl}. Use the token minted for that repository."), [])
      | none => match submit cfg pool intake req repo objects with
        | (created, .ok submitted) =>
          (.accepted submitted.runIds s!"{web.publicUrl}/" submitted.warnings, created)
        | (created, .error e) => (.error 400 e.text, created)

end HeyoCi
