import HeyoCi.Sched.Model
import HeyoCi.Submit.Submit

/-!
# What a repository token reaches

The secrets of a job lie under the workflow id of its run. A submit made with the token of a
repository is recorded under the repository's own workflow objects or under its own name, unless
the payload brings an id that the lookup by id takes as it is.

* `ownIds`, `recordable`: the ids that are the repository's, and those of one request;
* `secretsPrefix`, `secretsPrefix_kept`: where a job finds its secrets, at any later time;
* `mem_created`: where the requests of the created runs come from;
* `Confined`: the lookup by id finds nothing of somebody else's;
* **`token_scoped_iff`**: the recorded ids are the repository's own exactly then.
-/

namespace HeyoCi

/-- The ids of the enabled objects of a repository. -/
def ownIds (repo : Repo) (objects : WorkflowSet) : List String :=
  (objects.forRepo repo.url).map (·.id)

/-- What a request may be recorded under: the object of the repository it selects, or else every
object of the repository, or else its name. -/
def recordable (repo : Repo) (objects : WorkflowSet) (wanted : Option String) : List String :=
  match wanted.filter fun id => (ownIds repo objects).contains id with
  | some id => [id]
  | none => if (ownIds repo objects).isEmpty then [repo.name] else ownIds repo objects

/-! ## Where the secrets are -/

/-- `CI_ENVIRONMENT` of a job. -/
def environment (job : JobPlan) : String :=
  ((job.env.find? (·.1 = "CI_ENVIRONMENT")).map (·.2)).getD "default"

/-- The prefix `run_steps` resolves. -/
def secretsPrefix (db : Db) (runId : String) (job : JobPlan) : String :=
  Secrets.pathPrefix (((db.getRun runId).map (·.workflowId)).getD "") (environment job)

theorem Stmt.workflowId_row (now : Nat) (st : Stmt) (r : Run) :
    ((st.onRuns now).row r).workflowId = r.workflowId := by
  refine (st.onRuns now).map_row (fun r _ => ?_) r
  cases st <;> rfl

/-- A run keeps its workflow id over a statement. -/
theorem workflowId_exec {db : Db} {runId : String} {r : Run} (h : db.getRun runId = some r)
    (st : Stmt) : ∃ r', (db.exec st).getRun runId = some r' ∧ r'.workflowId = r.workflowId := by
  refine ⟨(st.onRuns db.now).row r, ?_, st.workflowId_row db.now r⟩
  rw [Db.getRun, Table.find_eq_some, (st.onRuns db.now).key_row]
  exact ⟨Db.exec_runs_of_mem (Table.mem_of_find h), Table.key_of_find h⟩

/-- **The jobs of a run find their secrets under the id the run was recorded with**, whenever they
look. -/
theorem secretsPrefix_kept {env : Env} {w w₁ w₂ : World} {runId : String} {req : RunRequest}
    {plan : Plan} (hsub : (machine env).step w (.submit runId req plan) = some w₁)
    (hr : (machine env).Reach Machine.anyStep w₁ w₂) (job : JobPlan) :
    secretsPrefix w₂.db runId job = Secrets.pathPrefix req.workflowId (environment job) := by
  have hfirst : ∃ r, w₁.db.getRun runId = some r ∧ r.workflowId = req.workflowId := by
    obtain ⟨st, c, -, hm, rfl⟩ := step_cases hsub
    cases hm with
    | submit _ _ _ hs =>
      obtain ⟨db', hc⟩ := Option.isSome_iff_exists.mp hs
      obtain ⟨runs, jobs, hins, -, rfl⟩ := Db.createRun_eq_some.mp hc
      refine ⟨req.row w.db.now runId plan, ?_, rfl⟩
      rw [Db.getRun, Db.exec, hc, Option.getD_some, Table.find_eq_some,
        (Table.insert_eq_some.mp hins).2]
      exact ⟨List.mem_cons_self, rfl⟩
    | watchEnds i x hi a ha => rcases ha with ha | ⟨_, ha, -⟩ <;> cases ha
  have key : ∀ t a t', (∃ r, t.db.getRun runId = some r ∧ r.workflowId = req.workflowId) →
      Machine.anyStep t a → (machine env).step t a = some t' →
      ∃ r, t'.db.getRun runId = some r ∧ r.workflowId = req.workflowId := by
    rintro t a t' ⟨r, hget, hid⟩ - hstep
    obtain ⟨st, c, -, -, rfl⟩ := step_cases hstep
    obtain ⟨r', hget', hid'⟩ := workflowId_exec hget st
    exact ⟨r', hget', hid'.trans hid⟩
  obtain ⟨r, hget, hid⟩ := Machine.Reach.inv
    (fun t => ∃ r, t.db.getRun runId = some r ∧ r.workflowId = req.workflowId) key hr hfirst
  rw [secretsPrefix, hget, Option.map_some, Option.getD_some, hid]

/-- A created run is recorded under one of these ids, and its jobs resolve secrets under one of
them, whatever the scheduler does. -/
def Recorded.Scoped (run : Recorded) (ids : List String) : Prop :=
  run.request.workflowId ∈ ids ∧ ∀ env w w₁ w₂ job,
    (machine env).step w (.submit run.runId run.request run.plan) = some w₁ →
    (machine env).Reach Machine.anyStep w₁ w₂ →
      ∃ id ∈ ids, secretsPrefix w₂.db run.runId job = Secrets.pathPrefix id (environment job)

theorem Recorded.scoped_iff {run : Recorded} {ids : List String} :
    run.Scoped ids ↔ run.request.workflowId ∈ ids := by
  refine ⟨fun h => h.1, fun h => ⟨h, fun env w w₁ w₂ job hsub hr => ?_⟩⟩
  exact ⟨_, h, secretsPrefix_kept hsub hr job⟩

/-! ## The runs a submit creates -/

section Created

variable {cfg : SubmitConfig} {pool : Pool} {intake : Intake} {req : SubmitRequest}
  {repo : Option Repo} {objects : WorkflowSet}

/-- The runs so far are recorded for sources of the list. -/
def Progress.From (srcs : List Source) (intake : Intake) (req : SubmitRequest) (repo : Option Repo)
    (p : Progress) : Prop :=
  ∀ run ∈ p.created, ∃ source ∈ srcs, run.request = runRequest intake req repo source

theorem from_startRun {srcs : List Source} {source : Source} (hs : source ∈ srcs) (plan : Plan)
    {p : Progress} (hp : p.From srcs intake req repo) :
    (startRun intake req repo source plan p).1.From srcs intake req repo := by
  have hnew : ∀ runIds, Progress.From srcs intake req repo
      { p with
        created := p.created ++
          [⟨intake.newId p.runIds.length, runRequest intake req repo source, plan⟩]
        runIds := runIds } := by
    intro runIds run hrun
    rcases List.mem_append.mp hrun with hrun | hrun
    · exact hp run hrun
    · obtain rfl := List.mem_singleton.mp hrun
      exact ⟨source, hs, rfl⟩
  unfold startRun
  simp only
  split
  · exact hp
  · split
    · exact hp
    · split
      · exact hnew p.runIds
      · exact hnew _

theorem from_submitFile {srcs : List Source} {source : Source} (hs : source ∈ srcs)
    (file : String × String) {p : Progress} (hp : p.From srcs intake req repo) :
    (submitFile cfg pool intake req repo source file p).1.From srcs intake req repo := by
  unfold submitFile
  split
  · exact hp
  · split_ifs
    · exact hp
    · split
      · exact hp
      · split
        · exact hp
        · split
          · exact hp
          · exact from_startRun hs _ hp

theorem from_submitSource {srcs : List Source} {source : Source} (hs : source ∈ srcs)
    {p : Progress} (hp : p.From srcs intake req repo) :
    (submitSource cfg pool intake req repo source p).1.From srcs intake req repo := by
  unfold submitSource
  split
  · exact hp
  · exact Loop.untilError_inv (fun file _ q hq => from_submitFile hs file hq) hp

/-- **Every created run is recorded for one of the sources**, and the submit was not refused. -/
theorem mem_created {run : Recorded} (h : run ∈ (submit cfg pool intake req repo objects).1) :
    (∃ source ∈ sources cfg.defaultWorkflowPath repo
        (matchedObjects objects req (recordedUrl req repo)),
      run.request = runRequest intake req repo source) ∧
    ∀ id, req.workflowId = some id → (objects.find id).isSome ∨ objects.loaded = false := by
  unfold submit at h
  split at h
  · cases h
  · simp only at h
    split at h
    · cases h
    · rename_i hopen
      refine ⟨Loop.untilError_inv (I := Progress.From _ intake req repo)
        (fun source hs q hq => from_submitSource hs hq)
        (fun run h => absurd h List.not_mem_nil) run h, fun id hid => ?_⟩
      rw [hid, Option.filter_some] at hopen
      cases hf : objects.find id with
      | some w => exact Or.inl rfl
      | none =>
        cases hl : objects.loaded with
        | false => exact Or.inr rfl
        | true => simp [matchedObjects, hid, hf, hl] at hopen

end Created

/-! ## Exactly when the ids are the repository's own -/

/-- A request with the token of a repository brings no id of somebody else's: it names no object, or
one of the repository's own, or nothing else than its name, or it is refused. -/
def Confined (repo : Repo) (objects : WorkflowSet) (req : SubmitRequest) : Prop :=
  ∀ id, req.workflowId = some id → id ∈ ownIds repo objects ∨
    (ownIds repo objects = [] ∧ id = repo.name) ∨ (objects.find id = none ∧ objects.loaded = true) ∨
    misdirected repo req = true

instance (repo : Repo) (objects : WorkflowSet) (req : SubmitRequest) :
    Decidable (Confined repo objects req) :=
  match h : req.workflowId with
  | none => .isTrue fun id hid => by rw [h] at hid; cases hid
  | some id => decidable_of_iff (id ∈ ownIds repo objects ∨
      (ownIds repo objects = [] ∧ id = repo.name) ∨
      (objects.find id = none ∧ objects.loaded = true) ∨ misdirected repo req = true)
      ⟨fun hc id' hid => by cases h.symm.trans hid; exact hc, fun hc => hc id h⟩

section Confined

variable {repo : Repo} {objects : WorkflowSet} {req : SubmitRequest}

/-- An id that is not the repository's own counts for nothing. -/
theorem mem_recordable {id : String} :
    id ∈ recordable repo objects (some id) ↔
      id ∈ ownIds repo objects ∨ (ownIds repo objects = [] ∧ id = repo.name) := by
  unfold recordable
  by_cases hown : id ∈ ownIds repo objects
  · simp [Option.filter, hown]
  · by_cases hnil : ownIds repo objects = []
    · simp [Option.filter, hnil]
    · simp [Option.filter, hown, hnil]

/-- The id a source is recorded under when the payload names one. -/
theorem workflowId_source {cfg : SubmitConfig} (intake : Intake) {id : String}
    (hid : req.workflowId = some id) {source : Source}
    (hs : source ∈ sources cfg.defaultWorkflowPath (some repo)
      (matchedObjects objects req (recordedUrl req (some repo)))) :
    (runRequest intake req (some repo) source).workflowId = id := by
  rw [matchedObjects, hid] at hs
  cases hf : objects.find id with
  | none =>
    simp only [hf, Option.toList_none, sources, List.isEmpty_nil, if_true, List.mem_singleton] at hs
    simp [runRequest, hs, hid]
  | some w =>
    simp only [hf, Option.toList_some, sources, List.isEmpty_cons, Bool.false_eq_true, if_false,
      List.map_cons, List.map_nil, List.mem_singleton] at hs
    simp [runRequest, hs, WorkflowSet.id_of_find hf]

/-- The ids sources are recorded under when the payload names none. -/
theorem workflowId_own {cfg : SubmitConfig} {intake : Intake} (hid : req.workflowId = none)
    {source : Source} (hs : source ∈ sources cfg.defaultWorkflowPath (some repo)
      (matchedObjects objects req (recordedUrl req (some repo)))) :
    (runRequest intake req (some repo) source).workflowId ∈ recordable repo objects none := by
  rw [matchedObjects, hid, recordedUrl] at hs
  simp only at hs
  unfold recordable ownIds
  cases hown : objects.forRepo repo.url with
  | nil =>
    simp only [hown, sources, List.isEmpty_nil, if_true, List.mem_singleton] at hs
    simp [runRequest, hs, hid]
  | cons w ws =>
    rw [hown, sources, List.isEmpty_cons, if_neg Bool.false_ne_true] at hs
    obtain ⟨w', hw', rfl⟩ := List.mem_map.mp hs
    simp only [runRequest, Option.filter_none, List.map_cons, List.isEmpty_cons,
      Bool.false_eq_true, if_false]
    exact List.mem_map_of_mem hw'

/-- A submit that is confined records the repository's own ids. -/
theorem Confined.recordable {cfg : SubmitConfig} {pool : Pool} {intake : Intake}
    (h : Confined repo objects req) (hm : misdirected repo req = false) {run : Recorded}
    (hrun : run ∈ (submit cfg pool intake req (some repo) objects).1) :
    run.request.workflowId ∈ HeyoCi.recordable repo objects req.workflowId := by
  obtain ⟨⟨source, hs, heq⟩, hopen⟩ := mem_created hrun
  rw [heq]
  cases hid : req.workflowId with
  | none => exact workflowId_own hid hs
  | some id =>
    rw [workflowId_source intake hid hs, mem_recordable]
    rcases h id hid with hown | hname | ⟨hf, hl⟩ | hmis
    · exact Or.inl hown
    · exact Or.inr hname
    · rcases hopen id hid with hsome | hload
      · rw [hf] at hsome
        cases hsome
      · rw [hl] at hload
        cases hload
    · rw [hm] at hmis
      cases hmis

end Confined

/-! ## A submit that starts a run -/

/-- A tree of one workflow file, and everything answers well. -/
def Intake.single : Intake where
  materialize := .ok ()
  changedPaths := .known []
  findWorkflows _ := .ok [("build.yml", "")]
  parse _ _ := .ok ⟨["submit"], fun _ _ => .ok (), .ok .single⟩
  newId k := s!"run-{k}"
  copyTree _ := .ok ()
  createRun _ := .ok ()
  advanceRun _ := .ok ()

theorem assignNetwork_single (runnerWait : Nat) (network : Option String) :
    ∃ plan, assignNetwork .single runnerWait network .single = .ok (plan, []) := ⟨_, rfl⟩

/-- Every source of such a tree gets a run, so there is one for the id that the payload names. -/
theorem created_single (cfg : SubmitConfig) (repo : Repo) {objects : WorkflowSet}
    {req : SubmitRequest} {id : String} (hid : req.workflowId = some id)
    (hopen : (objects.find id).isSome = true ∨ objects.loaded = false) :
    ∃ run ∈ (submit cfg .single .single req (some repo) objects).1, run.request.workflowId = id := by
  have hsource : ∃ source, sources cfg.defaultWorkflowPath (some repo)
      (matchedObjects objects req (recordedUrl req (some repo))) = [source] := by
    rw [matchedObjects, hid]
    cases hf : objects.find id <;> simp [hf, sources]
  obtain ⟨source, hsource⟩ := hsource
  have hid' := workflowId_source .single hid (by rw [hsource]; exact List.mem_cons_self)
  obtain ⟨plan, hplan⟩ := assignNetwork_single cfg.runnerWait source.network
  have hgate : (req.workflowId.filter fun _ => (matchedObjects objects req
      (recordedUrl req (some repo))).isEmpty && objects.loaded) = none := by
    rw [matchedObjects, hid]
    rcases hopen with hsome | hl
    · obtain ⟨w, hw⟩ := Option.isSome_iff_exists.mp hsome
      simp [hw]
    · simp [hl]
  have hcreated : (submitSource cfg .single .single req (some repo) source
      ⟨[], [], [], [], []⟩).1.created =
      [⟨Intake.single.newId 0, runRequest .single req (some repo) source, plan⟩] := by
    simp only [submitSource, Intake.single, Loop.untilError_singleton]
    simp [submitFile, hplan, startRun]
  refine ⟨⟨Intake.single.newId 0, runRequest .single req (some repo) source, plan⟩, ?_, hid'⟩
  have hrun : (submit cfg .single .single req (some repo) objects).1 =
      (submitSource cfg .single .single req (some repo) source ⟨[], [], [], [], []⟩).1.created := by
    unfold submit
    simp only [hgate, hsource, Loop.untilError_singleton]
    rfl
  rw [hrun, hcreated]
  exact List.mem_cons_self

/-! ## The request -/

section Request

variable {web : Web} {headers : Headers} {body token : String} {repo : Repo} {req : SubmitRequest}

/-- What the handler creates for a request with the token of a repository. -/
theorem created_handleSubmit (ht : bearer headers = some token)
    (ha : web.authenticateRepoToken token = .ok (some repo)) (hd : web.decode body = .ok req)
    (cfg : SubmitConfig) (pool : Pool) (objects : WorkflowSet) (intake : Intake) :
    (handleSubmit web cfg pool objects intake headers body).2 =
      if misdirected repo req then [] else (submit cfg pool intake req (some repo) objects).1 := by
  have hauth : authenticateSubmit web headers body = .ok (.repo repo) := by
    simp only [authenticateSubmit, ht, ha]
  simp only [handleSubmit, hauth, hd, registration, Option.filter]
  split_ifs with hm
  · rfl
  · rcases submit cfg pool intake req (some repo) objects with ⟨created, e | submitted⟩ <;> rfl

/-- **A request with the token of a repository is recorded under the repository's own ids exactly
when it is confined**, over every submitted tree and every answer of the other components. -/
theorem token_scoped_iff (ht : bearer headers = some token)
    (ha : web.authenticateRepoToken token = .ok (some repo)) (hd : web.decode body = .ok req)
    (objects : WorkflowSet) :
    (∀ cfg pool intake, ∀ run ∈ (handleSubmit web cfg pool objects intake headers body).2,
      run.Scoped (recordable repo objects req.workflowId)) ↔ Confined repo objects req := by
  simp only [created_handleSubmit ht ha hd, Recorded.scoped_iff]
  constructor
  · intro h id hid
    by_contra hout
    simp only [not_or, Bool.not_eq_true] at hout
    obtain ⟨hown, hname, hopen, hm⟩ := hout
    have hfound : (objects.find id).isSome = true ∨ objects.loaded = false := by
      cases hf : objects.find id with
      | some w => exact Or.inl rfl
      | none => exact Or.inr (Bool.eq_false_iff.mpr fun hl => hopen ⟨hf, hl⟩)
    obtain ⟨run, hrun, hrid⟩ := created_single ⟨"", 0⟩ repo hid hfound
    have hmem := h ⟨"", 0⟩ .single .single run (by rwa [if_neg (Bool.eq_false_iff.mp hm)])
    rw [hrid, hid, mem_recordable] at hmem
    exact hmem.elim hown hname
  · intro h cfg pool intake run hrun
    split_ifs at hrun with hm
    · cases hrun
    · exact h.recordable (Bool.eq_false_iff.mpr hm) hrun

end Request

/-! ## A token of `me/app` -/

/-- The registration of `me/app`. -/
def Repo.app : Repo := ⟨"r1", "git@github.com:me/app.git", "me/app", none, none, true⟩

/-- Its own object, and one of another repository. -/
def WorkflowSet.two : WorkflowSet where
  workflows := [⟨"app-build", "https://github.com/me/app", ".heyo/*.yml", "", none, true⟩,
    ⟨"deploy-prod", "https://github.com/me/infra", ".heyo/*.yml", "", none, true⟩]
  loaded := true

/-- A submit that names an object. -/
def SubmitRequest.naming (id : String) : SubmitRequest :=
  ⟨"", "", "refs/heads/main", "", "c0ffee", some id⟩

/-- A server that knows the token of `me/app`. -/
def Web.app (req : SubmitRequest) : Web where
  authenticateRepoToken token := .ok (if token = "tok" then some .app else none)
  repoByUrl _ := .ok none
  verifySignature _ _ := .error (401, "this server requires a signature")
  decode _ := .ok req
  requireRepoToken := true
  publicUrl := "http://ci"

theorem bearer_app : bearer ⟨some "Bearer tok", none⟩ = some "tok" := by decide

theorem decode_app (req : SubmitRequest) (body : String) : (Web.app req).decode body = .ok req := rfl

theorem token_scoped_app : Confined .app .two (.naming "app-build") ∧
    ∀ cfg pool intake, ∀ run ∈ (handleSubmit (.app (.naming "app-build")) cfg pool .two intake
      ⟨some "Bearer tok", none⟩ "").2, run.Scoped (recordable .app .two (some "app-build")) := by
  have hconf : Confined .app .two (.naming "app-build") := by decide +kernel
  exact ⟨hconf, (token_scoped_iff bearer_app rfl (decode_app (.naming "app-build") "") .two).mpr hconf⟩

/-- The token of `me/app` starts a run under the object of `me/infra`, whose secrets its jobs
resolve. -/
theorem foreign_object_recorded :
    ¬ ∀ run ∈ (handleSubmit (.app (.naming "deploy-prod")) ⟨".heyo/*.yml", 1800⟩ .single .two .single
      ⟨some "Bearer tok", none⟩ "").2, run.Scoped (recordable .app .two (some "deploy-prod")) := by
  have ha : (Web.app (.naming "deploy-prod")).authenticateRepoToken "tok" = .ok (some .app) := rfl
  rw [created_handleSubmit bearer_app ha (decode_app (.naming "deploy-prod") ""),
    if_neg (by decide)]
  have hid : (SubmitRequest.naming "deploy-prod").workflowId = some "deploy-prod" := rfl
  have hfound : (WorkflowSet.two.find "deploy-prod").isSome = true := by decide
  obtain ⟨run, hrun, hrid⟩ := created_single ⟨".heyo/*.yml", 1800⟩ .app hid (Or.inl hfound)
  intro h
  have hmem := Recorded.scoped_iff.mp (h run hrun)
  rw [hrid] at hmem
  revert hmem
  decide +kernel

end HeyoCi
