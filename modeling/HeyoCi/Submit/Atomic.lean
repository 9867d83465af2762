import HeyoCi.Submit.Scope

/-!
# What a refused submit leaves behind

`Dispatcher::submit` creates and advances the run of a workflow file before it parses the next one.

* `Item`, `items`, `submitItem`: the loops over sources and files, as one loop;
* `Verdict`, `Item.verdict`: what an item comes to, whatever came before it;
* `Starts`, `NothingFails`, `NothingStarts`: every run is started, or the first is not even created;
* `submitItems_ok`, `submitItems_created`: when the loop ends well, and when it creates nothing;
* **`submit_atomic_iff`**: a submit is all or nothing exactly when nothing fails or nothing starts.
-/

namespace HeyoCi

section Items

variable (cfg : SubmitConfig) (pool : Pool) (intake : Intake) (req : SubmitRequest)
  (repo : Option Repo)

/-! ## One loop -/

/-- A turn of the loops of a submit: the glob of a source, or one of its files. -/
inductive Item where
  | glob (source : Source)
  | file (source : Source) (file : String × String)

/-- The turns of a source. -/
def items (source : Source) : List Item :=
  .glob source :: match intake.findWorkflows source.pattern with
    | .error _ => []
    | .ok files => files.map (.file source)

/-- A turn of the loops. -/
def submitItem : Item → Progress → Progress × Option DispatchError
  | .glob source, p => match intake.findWorkflows source.pattern with
    | .error e => (p, some e)
    | .ok _ => ({ p with patternsTried := p.patternsTried ++ [source.pattern] }, none)
  | .file source file, p => submitFile cfg pool intake req repo source file p

theorem submitSource_eq (source : Source) (p : Progress) :
    submitSource cfg pool intake req repo source p =
      Loop.untilError (submitItem cfg pool intake req repo) (items intake source) p := by
  rw [items, Loop.untilError_cons, submitSource, submitItem]
  cases intake.findWorkflows source.pattern with
  | error e => rfl
  | ok files =>
    simp only [Loop.untilError_map]
    rfl

theorem untilError_submitSource (srcs : List Source) (p : Progress) :
    Loop.untilError (submitSource cfg pool intake req repo) srcs p =
      Loop.untilError (submitItem cfg pool intake req repo) (srcs.flatMap (items intake)) p :=
  Loop.untilError_flatMap (submitSource_eq cfg pool intake req repo) srcs p

/-! ## Verdicts -/

/-- What a turn comes to: it is passed over, it refuses the submit, or it starts a run. -/
inductive Verdict where
  | skip
  | refuse
  | start
  deriving DecidableEq

/-- The verdict on a workflow file: it refuses the submit when it does not parse, when its plan does
not build, and when a job of the plan cannot be placed. -/
def fileVerdict (source : Source) (file : String × String) : Verdict :=
  match intake.parse file.1 file.2 with
  | .error _ => .refuse
  | .ok wf => if !wf.on.contains "submit" then .skip
    else match wf.admits req.branch intake.changedPaths with
    | .error _ => .skip
    | .ok () => match wf.plan with
      | .error _ => .refuse
      | .ok plan => match assignNetwork pool cfg.runnerWait source.network plan with
        | .error _ => .refuse
        | .ok _ => .start

/-- The verdict on a turn. -/
def Item.verdict : Item → Verdict
  | .glob source => match intake.findWorkflows source.pattern with
    | .error _ => .refuse
    | .ok _ => .skip
  | .file source f => fileVerdict cfg pool intake req source f

/-- The `k`-th run is copied a tree, unless it is the first, and it is created. -/
def Records (k : Nat) : Prop :=
  (k = 0 ∨ intake.copyTree (intake.newId k) = .ok ()) ∧
    intake.createRun (intake.newId k) = .ok ()

/-- The `k`-th run is created and advanced. -/
def Starts (k : Nat) : Prop := Records intake k ∧ intake.advanceRun (intake.newId k) = .ok ()

/-- No turn refuses the submit, and every run that is due after the first `n` is started. -/
def NothingFails (n : Nat) (vs : List Verdict) : Prop :=
  Verdict.refuse ∉ vs ∧ ∀ k < vs.count .start, Starts intake (n + k)

/-- Nothing is due before the first refusal, or the first run that is due is not created. -/
def NothingStarts (vs : List Verdict) : Prop :=
  ∀ rest, vs.dropWhile (· = .skip) = .start :: rest → ¬ Records intake 0

end Items

section Turns

variable (cfg : SubmitConfig) (pool : Pool) (intake : Intake) (req : SubmitRequest)
  (repo : Option Repo)

/-! ## One turn -/

/-- What a turn does to the runs, by its verdict. -/
inductive Does (intake : Intake) (p : Progress) (o : Progress × Option DispatchError) :
    Verdict → Prop where
  | skip (hok : o.2 = none) (hc : o.1.created = p.created) (hr : o.1.runIds = p.runIds) :
      Does intake p o .skip
  | refuse (herr : o.2 ≠ none) (hc : o.1.created = p.created) : Does intake p o .refuse
  | start (hok : o.2 = none) (hs : Starts intake p.runIds.length)
      (hc : o.1.created.length = p.created.length + 1)
      (hr : o.1.runIds.length = p.runIds.length + 1) : Does intake p o .start
  | fail (herr : o.2 ≠ none) (hs : ¬ Starts intake p.runIds.length)
      (hle : p.created.length ≤ o.1.created.length)
      (hc : o.1.created.length = p.created.length ↔ ¬ Records intake p.runIds.length) :
      Does intake p o .start

theorem does_startRun (source : Source) (plan : Plan) (p : Progress) :
    Does intake p (startRun intake req repo source plan p) .start := by
  have hcopy : (if p.runIds.isEmpty then .ok () else
      intake.copyTree (intake.newId p.runIds.length) : Except DispatchError Unit) = .ok () ↔
      p.runIds.length = 0 ∨ intake.copyTree (intake.newId p.runIds.length) = .ok () := by
    cases p.runIds <;> simp
  unfold startRun
  simp only
  split
  · rename_i e hc
    have hno : ¬ Records intake p.runIds.length := by
      rw [Records, ← hcopy, hc]
      rintro ⟨hc, -⟩
      cases hc
    exact .fail (Option.some_ne_none e) (fun hs => hno hs.1) (Nat.le_refl _) (iff_of_true rfl hno)
  · rename_i hc
    split
    · rename_i e hr
      have hno : ¬ Records intake p.runIds.length := by simp [Records, hr]
      exact .fail (Option.some_ne_none e) (fun hs => hno hs.1) (Nat.le_refl _) (iff_of_true rfl hno)
    · rename_i hr
      have hrec : Records intake p.runIds.length := ⟨hcopy.mp hc, hr⟩
      split
      · rename_i e ha
        refine .fail (Option.some_ne_none e) (fun hs => ?_) ?_ (iff_of_false ?_ (not_not_intro hrec))
        · rw [Starts, ha] at hs
          cases hs.2
        · simp
        · simp
      · rename_i ha
        exact .start rfl ⟨hrec, ha⟩ (by simp) (by simp)

theorem does_submitFile (source : Source) (file : String × String) (p : Progress) :
    Does intake p (submitFile cfg pool intake req repo source file p)
      (fileVerdict cfg pool intake req source file) := by
  unfold fileVerdict submitFile
  cases intake.parse file.1 file.2 with
  | error e => exact .refuse (Option.some_ne_none _) rfl
  | ok wf =>
    simp only
    split_ifs
    · exact .skip rfl rfl rfl
    · cases wf.admits req.branch intake.changedPaths with
      | error why => exact .skip rfl rfl rfl
      | ok =>
        cases wf.plan with
        | error e => exact .refuse (Option.some_ne_none _) rfl
        | ok plan =>
          simp only
          cases assignNetwork pool cfg.runnerWait source.network plan with
          | error e => exact .refuse (Option.some_ne_none _) rfl
          | ok planned =>
            cases does_startRun intake req repo source planned.1
              { p with warnings := p.warnings ++ planned.2 } with
            | start hok hs hc hr => exact .start hok hs hc hr
            | fail herr hs hle hc => exact .fail herr hs hle hc

theorem does_submitItem (item : Item) (p : Progress) :
    Does intake p (submitItem cfg pool intake req repo item p)
      (item.verdict cfg pool intake req) := by
  cases item with
  | file source f => exact does_submitFile cfg pool intake req repo source f p
  | glob source =>
    unfold Item.verdict submitItem
    simp only
    cases intake.findWorkflows source.pattern with
    | error e => exact .refuse (Option.some_ne_none _) rfl
    | ok files => exact .skip rfl rfl rfl

/-! ## The loop -/

/-- The loop over the turns. -/
abbrev submitItems (its : List Item) (p : Progress) : Progress × Option DispatchError :=
  Loop.untilError (submitItem cfg pool intake req repo) its p

/-- The verdicts on the turns. -/
abbrev verdicts (its : List Item) : List Verdict := its.map (Item.verdict cfg pool intake req)

theorem nothingFails_cons_skip (n : Nat) (vs : List Verdict) :
    NothingFails intake n (.skip :: vs) ↔ NothingFails intake n vs := by
  simp [NothingFails]

theorem not_nothingFails_refuse (n : Nat) (vs : List Verdict) :
    ¬ NothingFails intake n (.refuse :: vs) := fun h => h.1 List.mem_cons_self

theorem nothingFails_cons_start (n : Nat) (vs : List Verdict) :
    NothingFails intake n (.start :: vs) ↔ Starts intake n ∧ NothingFails intake (n + 1) vs := by
  unfold NothingFails
  rw [List.count_cons_self]
  constructor
  · rintro ⟨href, hall⟩
    refine ⟨hall 0 (Nat.succ_pos _), fun hmem => href (List.mem_cons_of_mem _ hmem), fun k hk => ?_⟩
    rw [Nat.add_assoc, Nat.add_comm 1 k]
    exact hall (k + 1) (Nat.succ_lt_succ hk)
  · rintro ⟨hn, href, hall⟩
    refine ⟨by simp [href], fun k hk => ?_⟩
    cases k with
    | zero => exact hn
    | succ k =>
      rw [Nat.add_comm k 1, ← Nat.add_assoc]
      exact hall k (Nat.lt_of_succ_lt_succ hk)

/-- The loop ends well exactly when nothing fails, and then every run that was created was started. -/
theorem submitItems_ok (its : List Item) {p : Progress} (hp : p.created.length = p.runIds.length) :
    ((submitItems cfg pool intake req repo its p).2 = none ↔
      NothingFails intake p.runIds.length (verdicts cfg pool intake req its)) ∧
    ((submitItems cfg pool intake req repo its p).2 = none →
      (submitItems cfg pool intake req repo its p).1.created.length =
        (submitItems cfg pool intake req repo its p).1.runIds.length) := by
  induction its generalizing p with
  | nil => exact ⟨iff_of_true rfl ⟨List.not_mem_nil, nofun⟩, fun _ => hp⟩
  | cons item its ih =>
    have hdoes := does_submitItem cfg pool intake req repo item p
    rw [submitItems, Loop.untilError_cons, verdicts, List.map_cons]
    revert hdoes
    generalize submitItem cfg pool intake req repo item p = o
    generalize item.verdict cfg pool intake req = v
    rintro (⟨hok, hc, hr⟩ | ⟨herr, -⟩ | ⟨hok, hs, hc, hr⟩ | ⟨herr, hs, -, -⟩)
    · rw [hok, nothingFails_cons_skip, ← hr]
      exact ih (by rw [hc, hr, hp])
    · obtain ⟨e, he⟩ := Option.ne_none_iff_exists'.mp herr
      rw [he]
      exact ⟨iff_of_false (Option.some_ne_none e) (not_nothingFails_refuse intake _ _), nofun⟩
    · rw [hok, nothingFails_cons_start, and_iff_right hs, ← hr]
      exact ih (by rw [hc, hr, hp])
    · obtain ⟨e, he⟩ := Option.ne_none_iff_exists'.mp herr
      rw [he, nothingFails_cons_start]
      exact ⟨iff_of_false (Option.some_ne_none e) fun h => hs h.1, nofun⟩

theorem created_le (its : List Item) (p : Progress) :
    p.created.length ≤ (submitItems cfg pool intake req repo its p).1.created.length := by
  refine Loop.untilError_inv (I := fun q : Progress => p.created.length ≤ q.created.length)
    (fun item _ q hq => Nat.le_trans hq ?_) (Nat.le_refl _)
  have hdoes := does_submitItem cfg pool intake req repo item q
  revert hdoes
  generalize item.verdict cfg pool intake req = v
  rintro (⟨-, hc, -⟩ | ⟨-, hc⟩ | ⟨-, -, hc, -⟩ | ⟨-, -, hle, -⟩)
  · exact Nat.le_of_eq (congrArg List.length hc.symm)
  · exact Nat.le_of_eq (congrArg List.length hc.symm)
  · omega
  · exact hle

/-- The loop creates nothing exactly when nothing starts. -/
theorem submitItems_created (its : List Item) {p : Progress} (hc₀ : p.created = [])
    (hr₀ : p.runIds = []) :
    (submitItems cfg pool intake req repo its p).1.created = [] ↔
      NothingStarts intake (verdicts cfg pool intake req its) := by
  induction its generalizing p with
  | nil => exact iff_of_true hc₀ nofun
  | cons item its ih =>
    have hdoes := does_submitItem cfg pool intake req repo item p
    have hle : ∀ q : Progress, q.created.length = p.created.length + 1 →
        (submitItems cfg pool intake req repo its q).1.created ≠ [] := by
      intro q hq hnil
      have hle := created_le cfg pool intake req repo its q
      rw [hnil, hq] at hle
      cases hle
    rw [submitItems, Loop.untilError_cons, verdicts, List.map_cons, NothingStarts]
    revert hdoes
    generalize submitItem cfg pool intake req repo item p = o
    generalize item.verdict cfg pool intake req = v
    rintro (⟨hok, hc, hr⟩ | ⟨herr, hc⟩ | ⟨hok, hs, hc, hr⟩ | ⟨herr, hs, -, hc⟩)
    · rw [hok, List.dropWhile_cons_of_pos rfl]
      exact ih (hc.trans hc₀) (hr.trans hr₀)
    · obtain ⟨e, he⟩ := Option.ne_none_iff_exists'.mp herr
      rw [he, List.dropWhile_cons_of_neg (by decide)]
      exact iff_of_true (hc.trans hc₀) nofun
    · rw [hok, List.dropWhile_cons_of_neg (by decide)]
      refine iff_of_false (hle _ hc) fun h => h _ rfl ?_
      rw [hr₀] at hs
      exact hs.1
    · obtain ⟨e, he⟩ := Option.ne_none_iff_exists'.mp herr
      rw [he, List.dropWhile_cons_of_neg (by decide)]
      rw [hc₀, hr₀, List.length_nil, List.length_eq_zero_iff] at hc
      exact hc.trans ⟨fun h _ _ => h, fun h => h _ rfl⟩

end Turns

/-! ## All or nothing -/

section Submit

variable (cfg : SubmitConfig) (pool : Pool) (intake : Intake) (req : SubmitRequest)
  (repo : Option Repo) (objects : WorkflowSet)

/-- The verdicts of a submit, in the order of its loops. -/
def submitVerdicts : List Verdict :=
  verdicts cfg pool intake req ((sources cfg.defaultWorkflowPath repo
    (matchedObjects objects req (recordedUrl req repo))).flatMap (items intake))

/-- The loops end well and the submit is refused only when nothing was started. -/
theorem runIds_of_answer {p : Progress} {e : DispatchError} (h : p.answer = .error e) :
    p.runIds = [] := by
  unfold Progress.answer at h
  split_ifs at h with hnone
  rw [Bool.and_eq_true, List.isEmpty_iff] at hnone
  exact hnone.1

/-- The submit is refused before its loops: nothing is unpacked, or the object it names is unknown. -/
def RefusedAtOnce : Prop :=
  (∃ e, intake.materialize = .error e) ∨ (req.workflowId.isSome = true ∧
    matchedObjects objects req (recordedUrl req repo) = [] ∧ objects.loaded = true)

/-- **A submit that fails has created nothing, exactly when** it is refused before its loops, or none
of its turns fails, or the first run that is due is not created. -/
theorem submit_atomic_iff :
    ((∃ e, (submit cfg pool intake req repo objects).2 = .error e) →
      (submit cfg pool intake req repo objects).1 = []) ↔
    RefusedAtOnce intake req repo objects ∨
      NothingFails intake 0 (submitVerdicts cfg pool intake req repo objects) ∨
      NothingStarts intake (submitVerdicts cfg pool intake req repo objects) := by
  unfold submit RefusedAtOnce
  cases intake.materialize with
  | error e => exact iff_of_true (fun _ => rfl) (Or.inl (Or.inl ⟨e, rfl⟩))
  | ok =>
    simp only
    split
    · rename_i id hid
      obtain ⟨hid, hgate⟩ := Option.filter_eq_some_iff.mp hid
      rw [Bool.and_eq_true, List.isEmpty_iff] at hgate
      refine iff_of_true (fun _ => rfl) (Or.inl (Or.inr ⟨?_, hgate⟩))
      rw [hid, Option.isSome_some]
    · rename_i hopen
      have hat : ¬ ((∃ e, (.ok () : Except DispatchError Unit) = .error e) ∨
          (req.workflowId.isSome = true ∧ matchedObjects objects req (recordedUrl req repo) = [] ∧
            objects.loaded = true)) := by
        rintro (⟨e, he⟩ | ⟨hid, hnil, hloaded⟩)
        · cases he
        · obtain ⟨id, hid⟩ := Option.isSome_iff_exists.mp hid
          rw [hid, hnil, hloaded] at hopen
          cases hopen
      rw [or_iff_right hat, untilError_submitSource]
      obtain ⟨hfail, hran⟩ := submitItems_ok cfg pool intake req repo ((sources cfg.defaultWorkflowPath repo
        (matchedObjects objects req (recordedUrl req repo))).flatMap (items intake))
        (p := ⟨[], [], [], [], []⟩) rfl
      rw [submitVerdicts, ← submitItems_created cfg pool intake req repo
        (p := ⟨[], [], [], [], []⟩) _ rfl rfl]
      change _ ↔ NothingFails intake 0 _ at hfail
      rw [← hfail]
      unfold submitItems at hran ⊢
      revert hran
      generalize Loop.untilError (submitItem cfg pool intake req repo) _ _ = done
      intro hran
      cases hdone : done.2 with
      | some e =>
        rw [or_iff_right (Option.some_ne_none e)]
        exact ⟨fun h => h ⟨e, rfl⟩, fun h _ => h⟩
      | none =>
        refine iff_of_true ?_ (Or.inl rfl)
        rintro ⟨e, he⟩
        rw [← List.length_eq_zero_iff, hran hdone, List.length_eq_zero_iff]
        exact runIds_of_answer he

end Submit

/-- A tree of two workflow files, the second of which does not parse. -/
def Intake.halfBroken : Intake where
  materialize := .ok ()
  changedPaths := .known []
  findWorkflows _ := .ok [("build.yml", ""), ("web.yml", "jobs: [")]
  parse path _ := if path = "build.yml" then .ok ⟨["submit"], fun _ _ => .ok (), .ok .single⟩
    else .error s!"{path}: not valid YAML"
  newId k := s!"run-{k}"
  copyTree _ := .ok ()
  createRun _ := .ok ()
  advanceRun _ := .ok ()

/-- The run of the first file is there when the second refuses the submit. -/
theorem refused_submit_ran : ¬ ∀ (cfg : SubmitConfig) (pool : Pool) (intake : Intake)
    (req : SubmitRequest) (repo : Option Repo) (objects : WorkflowSet),
    (∃ e, (submit cfg pool intake req repo objects).2 = .error e) →
      (submit cfg pool intake req repo objects).1 = [] := by
  intro h
  have hnil := h ⟨"", 0⟩ .single .halfBroken (.naming "app") (some .app) ⟨[], false⟩
    ⟨.workflow "web.yml: not valid YAML", rfl⟩
  exact List.cons_ne_nil _ _ hnil

end HeyoCi
