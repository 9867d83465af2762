import HeyoCi.Image.Context
import HeyoCi.Lib.Loop
import HeyoCi.Steps.StepEnv
import HeyoCi.Workflow.Target

/-!
# Workflow files

The crate that reads YAML is outside: what it makes of a document and of its parts is a parameter.

* `StepFile`, `Strategy`, `Job`, `SubmitFilter`, `Workflow`: a parsed file;
* `YamlCrate`: what is used of the crate; `YamlCrate.ofJobs`, `Job.ofCommand`: one that was
  given some jobs;
* `Workflow.findCycle`: a cycle of `needs:`, if there is one;
* `Workflow.validate`, `Workflow.parse`: the checks of a file;
* **`parse_ok`**: what an accepted file is made of; `isJobId_of_parse`, `validate_ok`.
-/

namespace HeyoCi

/-! ## The parts of a file -/

/-- A step, whole. -/
structure StepFile extends StepBlock where
  withArgs : List (String × String)
  shell : Option String
  workingDirectory : Option String
  timeoutMinutes : Option Nat
  deriving Repr, DecidableEq

structure Strategy (Y : Type) where
  mtx : Option Y
  maxParallel : Option Nat
  failFast : Bool

/-- A job as it is written. -/
structure Job (Y : Type) where
  name : Option String
  uses : Option String
  vm : VmBlock
  needs : List String
  condition : Option String
  strategy : Option (Strategy Y)
  env : List (String × String)
  outputs : List (String × String)
  continueOnError : Bool
  timeoutMinutes : Option Nat
  fallback : Fallback
  steps : List StepFile

/-- `Job::target`. -/
def Job.target {Y : Type} (job : Job Y) : Except WorkflowError Target := match job.uses with
  | some u => Target.parse u
  | none => .ok Target.any

/-- The filters under `on: submit:`. -/
structure SubmitFilter where
  branches : List String
  branchesIgnore : List String
  paths : List String
  pathsIgnore : List String
  deriving Repr, DecidableEq

/-- No filters: every commit is built. -/
def SubmitFilter.all : SubmitFilter := ⟨[], [], [], []⟩

/-- `paths::validate`. -/
def Paths.validate (pattern : String) : Except String Unit :=
  let p := Text.trim pattern
  if p.isEmpty then .error "a path pattern is empty"
  else match p.toList with
  | '!' :: rest =>
    let shown := Text.debugStr (String.ofList rest)
    .error (s!"path pattern {Text.debugStr p} starts with `!`. Negation is spelled with a " ++
      "separate `paths-ignore:` list here, because a mixed list makes the result depend on the " ++
      s!"order the patterns happen to be written in. Write {shown} under `paths-ignore:`.")
  | '/' :: rest =>
    let shown := Text.debugStr (String.ofList (rest.dropWhile fun c => c = '/'))
    .error (s!"path pattern {Text.debugStr p} is absolute. Patterns are matched against " ++
      s!"repository-relative paths, so write {shown}.")
  | _ => .ok ()

/-- The patterns of one filter. -/
def SubmitFilter.validatePatterns (path field : String) (patterns : List String) :
    Except WorkflowError Unit :=
  Loop.forEach (fun pattern => (Paths.validate pattern).mapError (.badFilter path field)) patterns

/-- `SubmitFilter::validate`. -/
def SubmitFilter.validate (filter : SubmitFilter) (path : String) : Except WorkflowError Unit :=
  if !filter.paths.isEmpty && !filter.pathsIgnore.isEmpty then
    .error (.conflictingFilter path "paths" "paths-ignore")
  else if !filter.branches.isEmpty && !filter.branchesIgnore.isEmpty then
    .error (.conflictingFilter path "branches" "branches-ignore")
  else
    Loop.forEach (fun (field, patterns) => validatePatterns path field patterns)
      [("branches", filter.branches), ("branches-ignore", filter.branchesIgnore),
        ("paths", filter.paths), ("paths-ignore", filter.pathsIgnore)]

/-- A parsed file. -/
structure Workflow (Y : Type) where
  path : String
  name : Option String
  on : List String
  onSubmit : SubmitFilter
  env : List (String × String)
  jobs : List (String × Job Y)

/-- The top level of a document, `jobs:` as it is. -/
structure WorkflowHeader (Y : Type) where
  name : Option String
  on : Option Y
  env : List (String × String)
  jobs : Y

/-- What is used of the crate that reads YAML. -/
structure YamlCrate (Y : Type) where
  /-- `from_str`, of a document. -/
  header : String → Except String (WorkflowHeader Y)
  /-- `from_value`, of a job and of a block under `on: submit:`. -/
  job : Y → Except String (Job Y)
  filter : Y → Except String SubmitFilter
  asMapping : Y → Option (List (Y × Y))
  asSequence : Y → Option (List Y)
  asStr : Y → Option String
  isNull : Y → Bool
  /-- `{:?}`. -/
  debug : Y → String
  /-- `serde_json::to_value`, `null` where it fails. -/
  toJson : Y → Json

/-- `is_job_id`. -/
def isJobId (s : String) : Bool :=
  !s.isEmpty && s.utf8ByteSize ≤ 64 &&
    s.toList.all fun c => c.isAlphanum || c = '_' || c = '-'

/-- `Display` of the checks of `vm:`. -/
def VmSpecError.display : VmSpecError → String
  | unsupportedDriver =>
    "vm.driver must be `firecracker` or `kvm`; `libvirt` is not supported for CI VMs"
  | zeroDisk => "vm.disk_size_gb must be greater than zero"
  | zeroTtl => "vm.ttl_seconds must be greater than zero"
  | invalidEnvKey k => s!"vm.env_vars key {Text.debugStr k} is not a shell-safe name; use only " ++
      "letters, digits and underscores"
  | escapingCacheKeyFile p => s!"vm.cache_key_files entry {Text.debugStr p} must be a relative " ++
      "path inside the repository, with no `..` segments"
  | imageAndBuild => "vm.image and vm.build cannot both be set: a built image's name is the " ++
      "hash of its Dockerfile and context, so naming one as well could only disagree with it. " ++
      "Drop `image:` to build, or drop `build:` to use an image the host already has."
  | escapingBuildPath p => s!"vm.build path {Text.debugStr p} must be a relative path inside " ++
      "the repository, with no `..` segments"
  | emptyDockerfilePath => "vm.build.dockerfile must name a file in the repository"
  | zeroImageSize => "vm.build.size_mb must be greater than zero"

/-- A crate that was given a document without a trigger, in JSON, with some jobs. -/
def YamlCrate.ofJobs (jobs : List (String × Job Json)) : YamlCrate Json where
  header _ := .ok ⟨none, none, [], .obj (jobs.map fun (id, _) => (id, .str id))⟩
  job
    | .str id => (jobs.lookup id).elim (.error "not a job") .ok
    | _ => .error "not a job"
  filter _ := .ok .all
  asMapping
    | .obj members => some (members.map fun (k, v) => (.str k, v))
    | _ => none
  asSequence
    | .arr items => some items
    | _ => none
  asStr
    | .str s => some s
    | _ => none
  isNull v := v = .null
  debug _ := ""
  toJson := id

/-- A job of one command, with nothing else written. -/
def Job.ofCommand (command : String) : Job Json where
  name := none
  uses := none
  vm := ⟨⟨none, none, true, none⟩, .firecracker, none, none, [], [], [], none⟩
  needs := []
  condition := none
  strategy := none
  env := []
  outputs := []
  continueOnError := false
  timeoutMinutes := none
  fallback := .none
  steps := [⟨⟨⟨none, none, none, none, some command, false⟩, []⟩, [], none, none, none⟩]

namespace Workflow

variable {Y : Type}

/-! ## Cycles -/

inductive Mark where
  | opened
  | done
  deriving Repr, DecidableEq

/-- The jobs that were visited, and those on the way to the one that is. -/
structure Visits where
  marks : List (String × Mark)
  stack : List String

/-- Visit some jobs in turn, up to the first cycle. -/
def visitEach (visit : String → Visits → Option (List String) × Visits) :
    List String → Visits → Option (List String) × Visits
  | [], s => (none, s)
  | node :: nodes, s => match visit node s with
    | (some c, s) => (some c, s)
    | (none, s) => visitEach visit nodes s

/-- `visit`. A job is opened once, so there is no deeper call than there are jobs. -/
def visit (deps : List (String × List String)) :
    Nat → String → Visits → Option (List String) × Visits
  | 0, _, s => (none, s)
  | depth + 1, node, s => match s.marks.lookup node with
    | some .done => (none, s)
    | some .opened => (some (s.stack.drop ((s.stack.idxOf? node).getD 0) ++ [node]), s)
    | none =>
      let needs := ((deps.lookup node).getD []).filter fun n => (deps.lookup n).isSome
      let opened : Visits := ⟨(node, .opened) :: s.marks, s.stack ++ [node]⟩
      match visitEach (visit deps depth) needs opened with
      | (some c, s) => (some c, s)
      | (none, s) => (none, ⟨(node, .done) :: s.marks, s.stack.dropLast⟩)

variable (wf : Workflow Y)

/-- The map of `find_cycle`: of two entries with one id it keeps the last. -/
def deps : List (String × List String) := (wf.jobs.map fun (id, job) => (id, job.needs)).reverse

/-- `find_cycle`. -/
def findCycle : Option (List String) :=
  (visitEach (visit wf.deps (wf.deps.length + 1)) (wf.jobs.map Prod.fst) ⟨[], []⟩).1

/-! ## The checks -/

/-- One entry of `needs:`. -/
def checkNeed (ids : List String) (id need : String) : Except WorkflowError Unit :=
  if need ∉ ids then .error (.unknownNeed id need)
  else if need = id then .error (.selfNeed id)
  else .ok ()

/-- A step is a command or an action. -/
def checkStep (id : String) (numbered : StepFile × Nat) : Except WorkflowError Unit :=
  let (step, i) := numbered
  match step.run, step.uses with
  | some _, some _ => .error (.stepRunAndUses id (step.label i))
  | none, none => .error (.stepNeitherRunNorUses id (step.label i))
  | _, _ => .ok ()

/-- How a bad `uses:` is reported. -/
def badUses (id : String) : WorkflowError → WorkflowError
  | .emptyUses => .badUses id "`uses:` is empty"
  | other => .badUses id other.display

/-- One job. -/
def checkJob (ids : List String) (entry : String × Job Y) : Except WorkflowError Unit :=
  let (id, job) := entry
  if !isJobId id then .error (.badJobId id)
  else do
    job.vm.validate.mapError fun e => .badVm id e.display
    let _ ← job.target.mapError (badUses id)
    Loop.forEach (checkNeed ids id) job.needs
    if job.steps.isEmpty then .error (.noSteps id)
    else Loop.forEach (checkStep id) job.steps.zipIdx

/-- `Workflow::validate`. -/
def validate : Except WorkflowError Unit :=
  let ids := wf.jobs.map Prod.fst
  if ¬ ids.Nodup then .error (.duplicateJob wf.path)
  else do
    Loop.forEach (checkJob ids) wf.jobs
    match wf.findCycle with
    | some c => .error (.cycle c)
    | none => .ok ()

/-! ## Reading a file -/

variable (y : YamlCrate Y)

/-- A job as a document names it. -/
def readJob (path : String) (entry : Y × Y) : Except WorkflowError (String × Job Y) :=
  match y.asStr entry.1 with
  | none => .error (.badJobId (y.debug entry.1))
  | some id => match y.job entry.2 with
    | .error e => .error (.badJob path id e)
    | .ok job => .ok (id, job)

/-- `trigger_names`. -/
def triggerNames (v : Y) : List String := match y.asStr v, y.asSequence v, y.asMapping v with
  | some s, _, _ => [s]
  | none, some items, _ => items.filterMap y.asStr
  | none, none, some entries => entries.filterMap fun entry => y.asStr entry.1
  | none, none, none => []

/-- `submit_filter`. -/
def submitFilter (path : String) (v : Y) : Except WorkflowError SubmitFilter :=
  match (y.asMapping v).bind fun entries => entries.find? fun entry =>
      y.asStr entry.1 = some "submit" with
  | none => .ok .all
  | some (_, block) => if y.isNull block then .ok .all
    else (y.filter block).mapError (.badTriggerBlock path)

/-- The entries of `jobs:`. -/
def entries (path : String) (jobs : Y) : Except WorkflowError (List (Y × Y)) :=
  match y.asMapping jobs with
  | none | some [] => .error (.noJobs path)
  | some entries => .ok entries

/-- What `on:` says. -/
def triggers (path : String) : Option Y → Except WorkflowError (List String × SubmitFilter)
  | none => .ok (["submit"], .all)
  | some v => (submitFilter y path v).map fun filter => (triggerNames y v, filter)

/-- `Workflow::parse`. -/
def parse (path yaml : String) : Except WorkflowError (Workflow Y) := do
  let header ← (y.header yaml).mapError (.yaml path)
  let jobs ← Loop.mapEach (readJob y path) (← entries y path header.jobs)
  let (on, onSubmit) ← triggers y path header.on
  onSubmit.validate path
  let wf : Workflow Y := ⟨path, header.name, on, onSubmit, header.env, jobs⟩
  wf.validate
  .ok wf

/-! ## What is accepted -/

variable {wf y}

theorem checkNeed_ok {ids : List String} {id need : String} (h : checkNeed ids id need = .ok ()) :
    need ∈ ids ∧ need ≠ id := by
  unfold checkNeed at h
  rw [Loop.guard_ok_iff, Loop.guard_ok_iff] at h
  exact ⟨not_not.mp h.1, h.2.1⟩

theorem checkJob_ok {ids : List String} {id : String} {job : Job Y}
    (h : checkJob ids (id, job) = .ok ()) : isJobId id = true ∧
      (∃ target, job.target = .ok target) ∧ (∀ need ∈ job.needs, need ∈ ids ∧ need ≠ id) ∧
      job.steps ≠ [] := by
  obtain ⟨hid, h⟩ := Loop.guard_ok_iff.mp h
  obtain ⟨_, -, h⟩ := Loop.bind_ok_iff.mp h
  obtain ⟨target, htarget, h⟩ := Loop.bind_ok_iff.mp h
  obtain ⟨_, hneeds, h⟩ := Loop.bind_ok_iff.mp h
  obtain ⟨hsteps, -⟩ := Loop.guard_ok_iff.mp h
  refine ⟨by simpa using hid, ⟨target, Loop.mapError_ok_iff.mp htarget⟩, fun need hneed => ?_, ?_⟩
  · exact checkNeed_ok (Loop.forEach_ok_iff.mp hneeds need hneed)
  · exact fun hnil => hsteps (by rw [hnil]; rfl)

/-- **What a workflow with no error in it is like.** -/
theorem validate_ok (h : wf.validate = .ok ()) : (wf.jobs.map Prod.fst).Nodup ∧
    (∀ entry ∈ wf.jobs, checkJob (wf.jobs.map Prod.fst) entry = .ok ()) ∧ wf.findCycle = none := by
  obtain ⟨hnodup, h⟩ := Loop.guard_ok_iff.mp h
  obtain ⟨_, hjobs, h⟩ := Loop.bind_ok_iff.mp h
  refine ⟨not_not.mp hnodup, Loop.forEach_ok_iff.mp hjobs, ?_⟩
  cases hc : wf.findCycle with
  | none => rfl
  | some c =>
    rw [hc] at h
    cases h

/-- **What an accepted file is made of.** -/
theorem parse_ok {path yaml : String} (h : parse y path yaml = .ok wf) :
    ∃ header entries, y.header yaml = .ok header ∧ y.asMapping header.jobs = some entries ∧
      entries.map (readJob y path) = wf.jobs.map .ok ∧ wf.path = path ∧ wf.name = header.name ∧
      wf.env = header.env ∧ wf.validate = .ok () := by
  obtain ⟨header, hheader, h⟩ := Loop.bind_ok_iff.mp h
  obtain ⟨read, hread, h⟩ := Loop.bind_ok_iff.mp h
  obtain ⟨jobs, hjobs, h⟩ := Loop.bind_ok_iff.mp h
  obtain ⟨on, -, h⟩ := Loop.bind_ok_iff.mp h
  obtain ⟨_, -, h⟩ := Loop.bind_ok_iff.mp h
  obtain ⟨_, hvalid, h⟩ := Loop.bind_ok_iff.mp h
  cases h
  refine ⟨header, read, Loop.mapError_ok_iff.mp hheader, ?_, Loop.mapEach_ok_iff.mp hjobs, rfl,
    rfl, rfl, hvalid⟩
  unfold entries at hread
  split at hread
  · cases hread
  · cases hread
  · cases hread
    assumption

theorem isJobId_of_parse {path yaml : String} (h : parse y path yaml = .ok wf) :
    ∀ entry ∈ wf.jobs, isJobId entry.1 = true := by
  obtain ⟨-, -, -, -, -, -, -, -, hvalid⟩ := parse_ok h
  exact fun entry hentry => (checkJob_ok ((validate_ok hvalid).2.1 entry hentry)).1

end Workflow

end HeyoCi
