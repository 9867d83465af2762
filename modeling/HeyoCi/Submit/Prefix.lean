import HeyoCi.Lib.Words
import HeyoCi.Sched.Final
import HeyoCi.Submit.Scope

/-!
# Where the secrets of a job lie

The prefix of a workflow and an environment is built from the two after a reduction to the path
charset, which takes different names to one.

* `Secrets.Alike`: names that the reduction makes one;
* `Secrets.pathPrefix_inj`: two prefixes are one exactly when their components are alike;
* `Secrets.Apart`: neither prefix lies under the other, and nothing is resolved under both;
* **`Secrets.apart_iff`**: the prefixes of two pairs are apart exactly when the pairs are not alike;
* `WorkflowObject.Standard`: the object declares the prefix that `run_steps` builds;
* **`WorkflowObject.declared_iff`**: a job resolves what its object declares exactly then.
-/

namespace HeyoCi

namespace Secrets

/-! ## The reduction -/

/-- The letter of a path for a letter of a name. -/
def pathChar (c : Char) : Char := if isPathChar c then c else '-'

/-- Letters that become one in a path. -/
def AlikeChar (c d : Char) : Prop :=
  c = d ∨ ((isPathChar c = false ∨ c = '-') ∧ (isPathChar d = false ∨ d = '-'))

instance : DecidableRel AlikeChar := fun _ _ => by unfold AlikeChar; infer_instance

/-- Names that become one in a path: as long as each other, and alike letter by letter. -/
def Alike (s t : String) : Prop := List.Forall₂ AlikeChar s.toList t.toList

instance : DecidableRel Alike := fun _ _ => by unfold Alike; infer_instance

theorem toList_sanitize (s : String) : (sanitize s).toList = s.toList.map pathChar := by
  rw [sanitize, String.toList_ofList]
  rfl

theorem sanitize_eq_iff (s t : String) : sanitize s = sanitize t ↔ Alike s t := by
  rw [← String.toList_inj, toList_sanitize, toList_sanitize]
  exact Words.map_fold_eq_iff s.toList t.toList

theorem isPathChar_pathChar (c : Char) : isPathChar (pathChar c) = true := by
  unfold pathChar
  split_ifs with h
  · exact h
  · decide

/-- A name is reduced to itself exactly when it is in the path charset. -/
theorem sanitize_eq_self_iff (s : String) :
    sanitize s = s ↔ ∀ c ∈ s.toList, isPathChar c = true := by
  have hmap : s.toList.map pathChar = s.toList ↔ s.toList.map pathChar = s.toList.map id := by
    rw [List.map_id]
  rw [← String.toList_inj, toList_sanitize, hmap, List.map_inj_left]
  refine forall₂_congr fun c _ => ⟨fun h => ?_, Words.fold_of_keep⟩
  rw [← id_eq c, ← h]
  exact isPathChar_pathChar c

/-! ## The shape of a prefix -/

theorem slash_notMem_sanitize (s : String) : '/' ∉ (sanitize s).toList := by
  rw [toList_sanitize, List.mem_map]
  rintro ⟨c, -, hc⟩
  have h := isPathChar_pathChar c
  rw [hc] at h
  revert h
  decide

theorem length_sanitize (s : String) : (sanitize s).toList.length = s.toList.length := by
  rw [toList_sanitize, List.length_map]

theorem toList_pathPrefix (wf env : String) : (pathPrefix wf env).toList =
    ("ci/".toList ++ (sanitize wf).toList) ++ '/' :: (sanitize env).toList := by
  simp [pathPrefix]
  rfl

theorem count_slash_pathPrefix (wf env : String) : (pathPrefix wf env).toList.count '/' = 2 := by
  rw [toList_pathPrefix, List.count_append, List.count_append, List.count_cons_self,
    List.count_eq_zero.mpr (slash_notMem_sanitize wf),
    List.count_eq_zero.mpr (slash_notMem_sanitize env)]
  decide

theorem pathPrefix_inj {wf₁ env₁ wf₂ env₂ : String} :
    pathPrefix wf₁ env₁ = pathPrefix wf₂ env₂ ↔ Alike wf₁ wf₂ ∧ Alike env₁ env₂ := by
  rw [← sanitize_eq_iff, ← sanitize_eq_iff]
  constructor
  · intro h
    rw [← String.toList_inj, toList_pathPrefix, toList_pathPrefix, List.append_assoc,
      List.append_assoc, List.append_cancel_left_eq] at h
    have hsplit := Words.split_inj h (slash_notMem_sanitize wf₁) (slash_notMem_sanitize wf₂)
    exact ⟨String.toList_inj.mp hsplit.1, String.toList_inj.mp hsplit.2⟩
  · rintro ⟨hw, he⟩
    rw [pathPrefix, pathPrefix, hw, he]

/-! ## What is resolved under two prefixes -/

/-- A path is covered exactly when it extends the prefix segment by segment. -/
theorem covers_iff {pre path : String} :
    covers pre path = true ↔ pre.toList ++ ['/'] <+: path.toList ++ ['/'] := by
  rw [covers, Bool.or_eq_true, decide_eq_true_iff, List.isPrefixOf_iff_prefix,
    List.prefix_concat_iff, List.append_cancel_right_eq, String.toList_inj]
  exact or_congr_left eq_comm

theorem eq_of_covers {wf₁ env₁ wf₂ env₂ : String}
    (h : covers (pathPrefix wf₁ env₁) (pathPrefix wf₂ env₂) = true) :
    pathPrefix wf₁ env₁ = pathPrefix wf₂ env₂ := by
  rcases List.prefix_concat_iff.mp (covers_iff.mp h) with heq | hpre
  · exact String.toList_inj.mp (List.append_cancel_right heq)
  · have hle := hpre.sublist.count_le '/'
    rw [List.count_append, count_slash_pathPrefix, count_slash_pathPrefix] at hle
    simp at hle

/-- Neither prefix is the other or lies above it, and no stored path is resolved under both. -/
def Apart (p q : String) : Prop :=
  p ≠ q ∧ covers p q = false ∧ covers q p = false ∧
    ∀ path, resolves p path = true → resolves q path = false

/-- **The secrets of two workflows and environments are apart exactly when the two are not alike.** -/
theorem apart_iff (wf₁ env₁ wf₂ env₂ : String) :
    Apart (pathPrefix wf₁ env₁) (pathPrefix wf₂ env₂) ↔ ¬ (Alike wf₁ wf₂ ∧ Alike env₁ env₂) := by
  rw [← pathPrefix_inj]
  refine ⟨fun h => h.1, fun hne => ⟨hne, ?_, ?_, fun path hp => ?_⟩⟩
  · exact Bool.eq_false_iff.mpr fun h => hne (eq_of_covers h)
  · exact Bool.eq_false_iff.mpr fun h => hne (eq_of_covers h).symm
  · rw [Bool.eq_false_iff]
    intro hq
    rw [resolves, Bool.and_eq_true, covers_iff] at hp hq
    rcases List.prefix_or_prefix_of_prefix hp.1 hq.1 with h | h
    · exact hne (eq_of_covers (covers_iff.mpr h))
    · exact hne (eq_of_covers (covers_iff.mpr h)).symm

/-- The object `me-app` and a registered repository `me/app` share their secrets. -/
theorem object_shares_repository : ¬ ∀ (id url environment : String), id ≠ Repos.nameFromUrl url →
    Apart (pathPrefix id environment) (pathPrefix (Repos.nameFromUrl url) environment) := by
  intro h
  have happ := h "me-app" "git@github.com:me/app.git" "prod" (by decide)
  rw [apart_iff] at happ
  revert happ
  decide

end Secrets

namespace WorkflowObject

/-! ## What an object declares -/

/-- What is declared for the environment is the prefix that `run_steps` builds: there is no
override, or one that spells the default for an environment in the path charset. -/
def Standard (o : WorkflowObject) (environment : String) : Prop := ∀ p, o.secretsPrefix? = some p →
  String.ofList (Text.trimEndMatches "/" p.toList) = "ci/" ++ Secrets.sanitize o.id ∧
    ∀ c ∈ environment.toList, Secrets.isPathChar c = true

theorem secretsPrefix_eq_iff (o : WorkflowObject) (environment : String) :
    Secrets.pathPrefix o.id environment = o.secretsPrefix environment ↔ o.Standard environment := by
  unfold Standard secretsPrefix
  cases o.secretsPrefix? with
  | none => simp
  | some p =>
    simp only [Option.some.injEq, forall_eq', ← Secrets.sanitize_eq_self_iff]
    rw [← String.toList_inj, Secrets.toList_pathPrefix]
    have hdeclared : ∀ s : String, (s!"{s}/{environment}").toList =
        s.toList ++ '/' :: environment.toList := by
      intro s
      simp
      rfl
    rw [hdeclared]
    constructor
    · intro h
      have hlen : ('/' :: (Secrets.sanitize environment).toList).length =
          ('/' :: environment.toList).length := by
        rw [List.length_cons, List.length_cons, Secrets.length_sanitize]
      have hsplit := List.append_inj' h hlen
      refine ⟨?_, String.toList_inj.mp (List.cons.inj hsplit.2).2⟩
      rw [← String.toList_inj, ← hsplit.1, String.toList_append]
    · rintro ⟨hp, he⟩
      rw [hp, he, String.toList_append]

/-- The run is created for the object. -/
def Creates (o : WorkflowObject) (cfg : SubmitConfig) (pool : Pool) (intake : Intake)
    (req : SubmitRequest) (repo : Option Repo) (objects : WorkflowSet) (run : Recorded) : Prop :=
  o ∈ matchedObjects objects req (recordedUrl req repo) ∧
    run ∈ (submit cfg pool intake req repo objects).1 ∧
    ∃ source, source.id = some o.id ∧ run.request = runRequest intake req repo source

/-- **The jobs of a run resolve what the run's object declares exactly when the object declares the
default**, whenever they look. -/
theorem declared_iff {o : WorkflowObject} {cfg : SubmitConfig} {pool : Pool} {intake : Intake}
    {req : SubmitRequest} {repo : Option Repo} {objects : WorkflowSet} {run : Recorded}
    (hrun : o.Creates cfg pool intake req repo objects run) {env : Env} {w w₁ w₂ : World}
    (hsub : (machine env).step w (.submit run.runId run.request run.plan) = some w₁)
    (hr : (machine env).Reach Machine.anyStep w₁ w₂) (job : JobPlan) :
    HeyoCi.secretsPrefix w₂.db run.runId job = o.secretsPrefix (environment job) ↔
      o.Standard (environment job) := by
  obtain ⟨-, -, source, hid, hreq⟩ := hrun
  have hwf : run.request.workflowId = o.id := by
    rw [hreq]
    simp [runRequest, hid]
  rw [secretsPrefix_kept hsub hr job, hwf]
  exact o.secretsPrefix_eq_iff (environment job)

/-! ## An object with an override -/

/-- An object of `me/app` that may declare a prefix. -/
def app (declared : Option String) : WorkflowObject :=
  ⟨"app", "https://github.com/me/app", ".heyo/*.yml", "", declared, true⟩

/-- A submit that names the object starts a run of it. -/
theorem creates_app (declared : Option String) : ∃ run w₁,
    (app declared).Creates ⟨"", 0⟩ .single .single (.naming "app") (some .app) ⟨[app declared], true⟩
      run ∧
    (machine .plain).step (World.start 0 .single) (.submit run.runId run.request run.plan) =
      some w₁ := by
  exact ⟨_, _, ⟨List.mem_singleton_self _, List.mem_cons_self, ⟨_, _, _⟩, rfl, rfl⟩, rfl⟩

theorem declared_app : ∃ run w₁,
    (app none).Creates ⟨"", 0⟩ .single .single (.naming "app") (some .app) ⟨[app none], true⟩ run ∧
    (machine .plain).step (World.start 0 .single) (.submit run.runId run.request run.plan) =
      some w₁ ∧
    HeyoCi.secretsPrefix w₁.db run.runId (.plain "build" []) = (app none).secretsPrefix "default" := by
  obtain ⟨run, w₁, hrun, hsub⟩ := creates_app none
  refine ⟨run, w₁, hrun, hsub, (declared_iff hrun hsub Machine.Reach.refl (.plain "build" [])).mpr ?_⟩
  intro p hp
  cases hp

/-- The jobs of an object with the prefix `ci/shared/` resolve another one. -/
theorem override_ignored : ¬ ∀ (o : WorkflowObject) (cfg : SubmitConfig) (pool : Pool)
    (intake : Intake) (req : SubmitRequest) (repo : Option Repo) (objects : WorkflowSet)
    (run : Recorded), o.enabled = true → o.Creates cfg pool intake req repo objects run →
    ∀ (env : Env) (w w₁ w₂ : World),
    (machine env).step w (.submit run.runId run.request run.plan) = some w₁ →
    (machine env).Reach Machine.anyStep w₁ w₂ → ∀ job : JobPlan,
      HeyoCi.secretsPrefix w₂.db run.runId job = o.secretsPrefix (environment job) := by
  intro h
  obtain ⟨run, w₁, hrun, hsub⟩ := creates_app (some "ci/shared/")
  have hall := h _ _ _ _ _ _ _ _ rfl hrun _ _ _ _ hsub Machine.Reach.refl (.plain "build" [])
  have hid : run.request.workflowId = "app" := by
    obtain ⟨-, -, source, hid, hreq⟩ := hrun
    rw [hreq, runRequest, hid]
    rfl
  rw [secretsPrefix_kept hsub Machine.Reach.refl (.plain "build" []), hid] at hall
  revert hall
  decide

end WorkflowObject

end HeyoCi
