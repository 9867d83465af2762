import HeyoCi.Ids.Operations
import HeyoCi.Lib.Runs
import HeyoCi.Store.Files

/-!
# The log files

A step's log is three directories down: a directory of the run, one of the job, and in it a file of the
step. Each name is what is left of a text when its letters are folded.

* `sanitizeComponent`, `Store.logPath`: the names, and the path;
* `words`: what a text is made of; **`sanitizeComponent_eq_iff`**: that is what a name says of it;
* `LogStep`: the steps of a job that have a log; `logPath_eq_iff`;
* `OwnLogs`: every step of a plan has a file of its own, inside the directory;
* **`ownLogs_iff`**: so it is exactly when no two keys of the plan have the same words.
-/

namespace HeyoCi

/-! ## Names -/

/-- A letter that a name keeps. -/
def isComponentChar (c : Char) : Bool := c.isAlphanum || c = '_'

def sanitizeStep (out : List Char) (c : Char) : List Char :=
  let c := if isComponentChar c then c else '-'
  if c = '-' && out.getLast? = some '-' then out else out ++ [c]

/-- `sanitize_component`. -/
def sanitizeComponent (s : String) : String :=
  let trimmed := trimDashes (s.toList.foldl sanitizeStep [])
  if trimmed.isEmpty then "-" else String.ofList trimmed

/-- The words a text is made of, whatever is between them. -/
def words (s : String) : List (List Char) := Runs.runs isComponentChar s.toList

theorem sanitizeStep_eq : sanitizeStep = Runs.squeezeStep isComponentChar '-' := by
  funext out c
  have hdash : isComponentChar '-' = false := by decide
  rw [sanitizeStep, Runs.squeezeStep]
  by_cases hc : isComponentChar c = true
  · have hne : c ≠ '-' := Runs.ne_sep hdash hc
    simp [hc, hne]
  · simp [hc]

/-- **A name is the words of a text**, with a dash between any two. -/
theorem sanitizeComponent_eq (s : String) : sanitizeComponent s =
    if words s = [] then "-" else String.ofList (['-'].intercalate (words s)) := by
  have hdash : isComponentChar '-' = false := by decide
  have htrim : trimDashes (s.toList.foldl sanitizeStep []) = ['-'].intercalate (words s) := by
    rw [sanitizeStep_eq]
    exact Runs.strip_squeeze hdash s.toList
  rw [sanitizeComponent]
  simp only [htrim]
  by_cases hnil : words s = []
  · rw [if_pos hnil, hnil]
    rfl
  · rw [if_neg hnil, if_neg]
    exact fun hempty => hnil (Runs.intercalate_runs_eq_nil.mp (List.isEmpty_iff.mp hempty))

/-- A name says the words of a text, and nothing else. -/
theorem sanitizeComponent_eq_iff (s t : String) :
    sanitizeComponent s = sanitizeComponent t ↔ words s = words t := by
  have hdash : isComponentChar '-' = false := by decide
  have hends : ∀ s, ['-'].intercalate (words s) ≠ ['-'] := by
    intro s h
    have hhead := (Runs.ends_intercalate hdash fun w (hw : w ∈ words s) => Runs.runs_spec hw).1
    rw [h] at hhead
    exact hhead rfl
  refine ⟨fun h => ?_, fun h => by rw [sanitizeComponent_eq, sanitizeComponent_eq, h]⟩
  have hlist := congrArg String.toList h
  rw [sanitizeComponent_eq, sanitizeComponent_eq] at hlist
  split_ifs at hlist with hs ht ht
  · rw [hs, ht]
  · change ['-'] = (String.ofList (['-'].intercalate (words t))).toList at hlist
    rw [String.toList_ofList] at hlist
    exact absurd hlist.symm (hends t)
  · rw [String.toList_ofList] at hlist
    exact absurd hlist (hends s)
  · rw [String.toList_ofList, String.toList_ofList] at hlist
    exact (Runs.intercalate_runs_inj hdash).mp hlist

/-- The letters of a name. -/
theorem mem_sanitizeComponent {s : String} {c : Char} (h : c ∈ (sanitizeComponent s).toList) :
    c = '-' ∨ isComponentChar c = true := by
  rw [sanitizeComponent_eq] at h
  split_ifs at h
  · exact Or.inl (List.mem_singleton.mp h)
  · rw [String.toList_ofList] at h
    exact Runs.mem_intercalate_runs h

theorem plainName_sanitizeComponent (s : String) : PlainName (sanitizeComponent s) := by
  have hnot : ∀ {c}, c ∈ (sanitizeComponent s).toList → c ≠ '.' ∧ c ≠ '/' := by
    intro c hc
    rcases mem_sanitizeComponent hc with rfl | hchar
    · exact ⟨by decide, by decide⟩
    · constructor <;> rintro rfl <;> exact absurd hchar (by decide)
  refine ⟨fun hempty => ?_, fun hdot => ?_, fun hdots => ?_, fun hslash => (hnot hslash).2 rfl⟩
  · rw [sanitizeComponent_eq] at hempty
    split_ifs at hempty with hnil
    · exact absurd hempty (by decide)
    · have hlist := congrArg String.toList hempty
      rw [String.toList_ofList] at hlist
      exact hnil (Runs.intercalate_runs_eq_nil.mp hlist)
  · exact (hnot (hdot ▸ List.mem_cons_self)).1 rfl
  · exact (hnot (hdots ▸ List.mem_cons_self)).1 rfl

/-! ## Paths -/

/-- A number as `{:03}` prints it. -/
def padded (n : Int) : String :=
  let sign := if n < 0 then ['-'] else []
  let digits := Nat.toDigits 10 n.natAbs
  String.ofList (sign ++ List.replicate (3 - (sign ++ digits).length) '0' ++ digits)

def logName (idx : Int) (stepId : String) : String :=
  padded idx ++ "-" ++ sanitizeComponent stepId ++ ".log"

/-- `log_path`. -/
def Store.logPath (logDir runId jobKey : String) (idx : Int) (stepId : String) : String :=
  joinPath (joinPath (joinPath logDir (sanitizeComponent runId)) (sanitizeComponent jobKey))
    (logName idx stepId)

theorem toList_logName (idx : Int) (stepId : String) : (logName idx stepId).toList =
    (padded idx).toList ++ '-' :: ((sanitizeComponent stepId).toList ++ ".log".toList) := by
  rw [logName, String.toList_append, String.toList_append, String.toList_append, List.append_assoc,
    List.append_assoc]
  rfl

theorem slash_notMem_padded (n : Int) : '/' ∉ (padded n).toList := by
  intro h
  rw [padded] at h
  simp only [String.toList_ofList, List.mem_append] at h
  rcases h with (h | h) | h
  · split_ifs at h
    · cases List.mem_singleton.mp h
    · cases h
  · cases List.eq_of_mem_replicate h
  · exact absurd (Nat.isDigit_of_mem_toDigits (by omega) (by omega) h) (by decide)

theorem plainName_logName (idx : Int) (stepId : String) : PlainName (logName idx stepId) := by
  have hg : 'g' ∈ (logName idx stepId).toList := by
    rw [toList_logName]
    simp
  refine ⟨fun hempty => ?_, fun hdot => ?_, fun hdots => ?_, fun hslash => ?_⟩
  · rw [hempty] at hg
    cases hg
  · rw [hdot] at hg
    revert hg
    decide
  · rw [hdots] at hg
    revert hg
    decide
  · rw [toList_logName, List.mem_append, List.mem_cons, List.mem_append] at hslash
    rcases hslash with h | h | h | h
    · exact slash_notMem_padded idx h
    · cases h
    · exact (plainName_sanitizeComponent stepId).2.2.2 h
    · revert h
      decide

/-- **A log is three steps below the directory**, whatever it is for. -/
theorem below_logPath (logDir runId jobKey : String) (idx : Int) (stepId : String) :
    Below logDir [sanitizeComponent runId, sanitizeComponent jobKey, logName idx stepId]
      (Store.logPath logDir runId jobKey idx stepId) :=
  (((below_self logDir).join (plainName_sanitizeComponent runId)).join
    (plainName_sanitizeComponent jobKey)).join (plainName_logName idx stepId)

/-- A path says the names in it. -/
theorem names_of_logPath_eq {logDir run run' key key' stepId stepId' : String} {idx idx' : Int}
    (h : Store.logPath logDir run key idx stepId = Store.logPath logDir run' key' idx' stepId') :
    sanitizeComponent key = sanitizeComponent key' ∧ logName idx stepId = logName idx' stepId' := by
  have hbelow := below_logPath logDir run' key' idx' stepId'
  rw [← h] at hbelow
  have hnames := (below_logPath logDir run key idx stepId).names_inj hbelow
  simp only [List.cons.injEq, and_true] at hnames
  exact hnames.2

/-- The steps of a job that have a log. -/
inductive LogStep where
  | checkout
  | vmlog
  | imglog
  | step (idx : Nat)
  deriving Repr, DecidableEq

namespace LogStep

/-- The number of a step, in 32 bits. -/
def index : LogStep → Int
  | checkout => -1
  | vmlog => -2
  | imglog => -3
  | step idx => (idx : Int).bmod (2 ^ 32)

/-- What the id of a step has behind that of the job. -/
def suffix : LogStep → String
  | checkout => "checkout"
  | vmlog => "vmlog"
  | imglog => "imglog"
  | step idx => idx.repr

def id (jobId : String) : LogStep → String
  | checkout => s!"{jobId}.checkout"
  | vmlog => s!"{jobId}.vmlog"
  | imglog => s!"{jobId}.imglog"
  | step idx => Store.stepId jobId idx

theorem id_eq (jobId : String) (s : LogStep) : s.id jobId = jobId ++ "." ++ s.suffix := by
  cases s <;> simp [id, suffix, Store.stepId, toString, String.append_assoc]

/-- Every suffix is one word. -/
theorem isComponentChar_suffix (s : LogStep) : s.suffix ≠ "" ∧
    ∀ c ∈ s.suffix.toList, isComponentChar c = true := by
  have hname : ∀ name ∈ ["checkout", "vmlog", "imglog"], name ≠ "" ∧
      (name.toList.all isComponentChar) = true := by decide
  have hall : ∀ name ∈ ["checkout", "vmlog", "imglog"], name ≠ "" ∧
      ∀ c ∈ name.toList, isComponentChar c = true := fun name h =>
    ⟨(hname name h).1, List.all_eq_true.mp (hname name h).2⟩
  cases s with
  | checkout => exact hall "checkout" (by simp)
  | vmlog => exact hall "vmlog" (by simp)
  | imglog => exact hall "imglog" (by simp)
  | step idx =>
    refine ⟨fun h => ?_, fun c hc => ?_⟩
    · have hlen := congrArg String.toList h
      rw [suffix, Nat.toList_repr] at hlen
      exact Nat.toDigits_ne_nil hlen
    · rw [suffix, Nat.toList_repr] at hc
      have hdigit := Nat.isDigit_of_mem_toDigits (by omega) (by omega) hc
      simp [isComponentChar, Char.isAlphanum, hdigit]

/-- A suffix says which step it is. -/
theorem suffix_inj {s s' : LogStep} (h : s.suffix = s'.suffix) : s = s' := by
  have hletter : ∀ idx : Nat, ∀ name ∈ ["checkout", "vmlog", "imglog"], idx.repr ≠ name := by
    intro idx name hname heq
    have hg : ∀ name ∈ ["checkout", "vmlog", "imglog"], 'c' ∈ name.toList ∨ 'g' ∈ name.toList := by
      decide
    have hdigit : ∀ c ∈ name.toList, c.isDigit = true := by
      intro c hc
      rw [← heq, Nat.toList_repr] at hc
      exact Nat.isDigit_of_mem_toDigits (by omega) (by omega) hc
    rcases hg name hname with hc | hc
    · exact absurd (hdigit _ hc) (by decide)
    · exact absurd (hdigit _ hc) (by decide)
  cases s <;> cases s'
  case step.step idx idx' => rw [Nat.repr_injective h]
  case step.checkout idx | step.vmlog idx | step.imglog idx => exact absurd h (hletter idx _ (by simp [suffix]))
  case checkout.step idx | vmlog.step idx | imglog.step idx =>
    exact absurd h.symm (hletter idx _ (by simp [suffix]))
  all_goals first | rfl | exact absurd h (by decide)

end LogStep

/-! ## Which path is whose -/

theorem words_stepId (run key : String) (s : LogStep) :
    words (s.id (Store.jobId run key)) = words run ++ words key ++ [s.suffix.toList] := by
  have hdot : isComponentChar '.' = false := by decide
  obtain ⟨hne, hall⟩ := s.isComponentChar_suffix
  have hlist : (s.id (Store.jobId run key)).toList =
      run.toList ++ '.' :: (key.toList ++ '.' :: s.suffix.toList) := by
    rw [LogStep.id_eq]
    simp [Store.jobId, toString]
  rw [words, hlist, Runs.runs_append_cons hdot, Runs.runs_append_cons hdot, Runs.runs_of_all hall,
    if_neg fun h => hne (String.toList_eq_nil_iff.mp h), List.append_assoc]
  rfl

/-- What the name of a log has behind its last dash. -/
theorem exists_logName (idx : Int) (run key : String) (s : LogStep) : ∃ before,
    (logName idx (s.id (Store.jobId run key))).toList =
      before ++ '-' :: (s.suffix.toList ++ ".log".toList) := by
  have hne : words (s.id (Store.jobId run key)) ≠ [] := by
    rw [words_stepId]
    simp
  rw [toList_logName, sanitizeComponent_eq, if_neg hne, String.toList_ofList, words_stepId,
    Runs.intercalate_concat]
  rcases List.eq_nil_or_concat (words run ++ words key) with hnil | ⟨front, w, hwords⟩
  · rw [hnil]
    exact ⟨(padded idx).toList, rfl⟩
  · refine ⟨(padded idx).toList ++ '-' :: (front.flatMap (· ++ ['-']) ++ w), ?_⟩
    rw [hwords, List.concat_eq_append, List.flatMap_append]
    simp

/-- **Two logs of a run have one path exactly where the keys have the same words** and the steps are the
same. -/
theorem logPath_eq_iff (logDir run key key' : String) (s s' : LogStep) :
    Store.logPath logDir run key s.index (s.id (Store.jobId run key)) =
        Store.logPath logDir run key' s'.index (s'.id (Store.jobId run key')) ↔
      words key = words key' ∧ s = s' := by
  constructor
  · intro h
    obtain ⟨hkey, hname⟩ := names_of_logPath_eq h
    refine ⟨(sanitizeComponent_eq_iff key key').mp hkey, LogStep.suffix_inj ?_⟩
    obtain ⟨before, hbefore⟩ := exists_logName s.index run key s
    obtain ⟨before', hbefore'⟩ := exists_logName s'.index run key' s'
    have hnodash : ∀ s : LogStep, ∀ c ∈ s.suffix.toList ++ ".log".toList, c ≠ '-' := by
      intro s c hc
      rcases List.mem_append.mp hc with hc | hc
      · exact Runs.ne_sep (by decide) (s.isComponentChar_suffix.2 c hc)
      · rintro rfl
        exact absurd hc (by decide)
    rw [hname, hbefore'] at hbefore
    obtain ⟨-, -, hsuffix⟩ := Words.last_split_inj (p := fun c => c ≠ '-') hbefore (by simp) (by simp)
      (hnodash s') (hnodash s)
    exact (String.toList_inj.mp (List.append_cancel_right hsuffix)).symm
  · rintro ⟨hwords, rfl⟩
    have hid : sanitizeComponent (s.id (Store.jobId run key)) =
        sanitizeComponent (s.id (Store.jobId run key')) := by
      rw [sanitizeComponent_eq_iff, words_stepId, words_stepId, hwords]
    rw [Store.logPath, Store.logPath, logName, logName, hid, (sanitizeComponent_eq_iff key key').mpr hwords]

/-! ## The logs of a plan -/

/-- The steps of a cell that have a log. -/
def LogStep.Occurs (cell : PlannedJob) : LogStep → Prop
  | step idx => idx < cell.steps.length
  | checkout | vmlog | imglog => True

/-- A step as `log_path` is given it: the key of its job, its number and its id. -/
def LogStep.triple (run key : String) (s : LogStep) : String × Int × String :=
  (key, s.index, s.id (Store.jobId run key))

/-- **Every step has a log of its own, inside the directory**: two steps have two paths, and whatever a
path is made of is three steps down. -/
structure OwnLogs (logDir run : String) (plan : BuiltPlan) : Prop where
  apart : ∀ c ∈ plan.cells, ∀ c' ∈ plan.cells, ∀ s s' : LogStep, s.Occurs c → s'.Occurs c' →
    s.triple run c.key ≠ s'.triple run c'.key →
    Store.logPath logDir run c.key s.index (s.id (Store.jobId run c.key)) ≠
      Store.logPath logDir run c'.key s'.index (s'.id (Store.jobId run c'.key))
  inside : ∀ (runId jobKey : String) (idx : Int) (stepId : String), ∃ names : List String,
    names.length = 3 ∧ Below logDir names (Store.logPath logDir runId jobKey idx stepId)

/-- **The steps of a plan have logs of their own exactly when no two keys of it have the same words.** -/
theorem ownLogs_iff (logDir run : String) (plan : BuiltPlan) : OwnLogs logDir run plan ↔
    ∀ c ∈ plan.cells, ∀ c' ∈ plan.cells, words c.key = words c'.key → c.key = c'.key := by
  constructor
  · intro h c hc c' hc' hwords
    by_contra hne
    refine h.apart c hc c' hc' .checkout .checkout trivial trivial ?_ ?_
    · exact fun htriple => hne (congrArg Prod.fst htriple)
    · exact (logPath_eq_iff logDir run c.key c'.key _ _).mpr ⟨hwords, rfl⟩
  · intro h
    refine ⟨fun c hc c' hc' s s' _ _ hne hpath => hne ?_, fun runId jobKey idx stepId =>
      ⟨_, rfl, below_logPath logDir runId jobKey idx stepId⟩⟩
    obtain ⟨hwords, rfl⟩ := (logPath_eq_iff logDir run c.key c'.key s s').mp hpath
    rw [h c hc c' hc' hwords]

section Dashes

private def dashJob : Job Json where
  name := none
  uses := none
  vm := ⟨⟨none, none, true, none⟩, .firecracker, none, none, [], [], [], none⟩
  needs := []
  condition := none
  strategy := none
  env := []
  outputs := []
  continueOnError := false
  timeoutMinutes := none
  fallback := .none
  steps := [⟨⟨⟨none, none, none, none, some "true", false⟩, []⟩, [], none, none, none⟩]

/-- A crate that was given one document, with two jobs. -/
private def dashCrate : YamlCrate Json where
  header _ := .ok ⟨none, none, [], .obj [("a-b", .null), ("a--b", .null)]⟩
  job _ := .ok dashJob
  filter _ := .ok .all
  asMapping
    | .obj o => some (o.map fun kv => (.str kv.1, kv.2))
    | _ => none
  asSequence _ := none
  asStr
    | .str s => some s
    | _ => none
  isNull _ := false
  debug _ := ""
  toJson := id

private def dashPlan : Option BuiltPlan :=
  (Workflow.parse dashCrate "build.yml" "").toOption.bind fun wf =>
    (Plan.build dashCrate Expr.Floats.absent wf).toOption

/-- Two jobs of a workflow that is accepted write to one file. -/
theorem dashed_jobs_share : ¬ ∀ (Y F : Type) (y : YamlCrate Y) (fl : Expr.Floats F)
    (path yaml logDir : String) (wf : Workflow Y) (plan : BuiltPlan) (ms seq : Nat),
    Workflow.parse y path yaml = .ok wf → Plan.build y fl wf = .ok plan →
    OwnLogs logDir (newId ms seq) plan := by
  intro h
  have hkeys : dashPlan.map (fun plan => plan.cells.map (·.key)) = some ["a-b", "a--b"] := by
    decide +kernel
  obtain ⟨plan, hplan, hcells⟩ := Option.map_eq_some_iff.mp hkeys
  obtain ⟨wf, hwf, hbuild⟩ := Option.bind_eq_some_iff.mp hplan
  have hown := h Json _ dashCrate Expr.Floats.absent "build.yml" "" "ci-logs" wf plan 0 0
    (Loop.ok_of_toOption hwf) (Loop.ok_of_toOption hbuild)
  have hmem : ∀ key ∈ ["a-b", "a--b"], ∃ c ∈ plan.cells, c.key = key := fun key hkey =>
    List.mem_map.mp (hcells ▸ hkey)
  obtain ⟨c, hc, hkey⟩ := hmem "a-b" (by simp)
  obtain ⟨c', hc', hkey'⟩ := hmem "a--b" (by simp)
  refine hown.apart c hc c' hc' .checkout .checkout trivial trivial ?_ ?_
  · rw [hkey, hkey']
    exact fun htriple => absurd (congrArg Prod.fst htriple) (by decide)
  · rw [logPath_eq_iff, hkey, hkey']
    exact ⟨by decide, rfl⟩

end Dashes

end HeyoCi
