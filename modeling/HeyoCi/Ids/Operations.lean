import HeyoCi.Ids.Mint
import HeyoCi.Plan.Build
import HeyoCi.Warm.Guest

/-!
# The ids of operations

Every command in a guest goes by an id made of the id of the run, the key of the job and what the
command is.

* `isRunId`: the ids of runs, as they are minted; `isRunId_newId`;
* `GuestOp.InRange`: numbers below 64 bits; `length_suffix`, `isIdChar_suffix`: the length and the
  letters of what an id has behind that of the job;
* `jobId_inj`: a job's id says its run and its key;
* **`operationIds_ok`**: the ids of a plan are valid and say what they are for.
-/

namespace HeyoCi

/-- What `new_id` mints while a millisecond has twelve digits. -/
def isRunId (s : String) : Bool :=
  !s.isEmpty && s.length ≤ 21 && s.toList.all fun c => isHexDigit c || c = '-'

/-- Minted ids are ids of runs, for the next few thousand years. -/
theorem isRunId_newId {ms : Nat} (hms : ms < 16 ^ 12) (seq : Nat) :
    isRunId (newId ms seq) = true := by
  have hlen : ∀ width n, 0 < width → n < 16 ^ width → (hexChars width n).length = width := by
    intro width n hw hn
    have hdigits := (Nat.length_toDigits_le_iff (b := 16) (by omega) hw).mpr hn
    rw [hexChars, List.length_append, List.length_replicate]
    omega
  have hsize : (newId ms seq).length = 21 := by
    rw [newId, String.length_ofList, List.length_append, List.length_cons,
      hlen 12 ms (by omega) hms, hlen 8 (seq % 2 ^ 32) (by omega) (by omega)]
  simp only [isRunId, Bool.and_eq_true, Bool.not_eq_true', decide_eq_true_eq, List.all_eq_true,
    Bool.or_eq_true]
  refine ⟨⟨?_, by omega⟩, fun c hc => ?_⟩
  · rw [Bool.eq_false_iff, ne_eq, String.isEmpty_iff]
    intro hempty
    rw [hempty] at hsize
    cases hsize
  · rw [newId, String.toList_ofList, List.mem_append, List.mem_cons] at hc
    rcases hc with hc | rfl | hc
    · exact Or.inl (isHexDigit_hexChars hc)
    · exact Or.inr rfl
    · exact Or.inl (isHexDigit_hexChars hc)

namespace GuestOp

/-- The numbers of a command fit into 64 bits. -/
def InRange : GuestOp → Prop
  | upload i | step i | artifact i => i < 2 ^ 64
  | verify | extract => True

/-- A letter of an id. -/
def isIdChar (c : Char) : Bool := c.isAlphanum || c = '-' || c = '_' || c = '.'

/-- What stands behind the id of the job. -/
def suffix : GuestOp → String
  | upload i => ".checkout.u" ++ i.repr
  | verify => ".checkout.uv"
  | extract => ".checkout.x"
  | step idx => "." ++ idx.repr
  | artifact idx => "." ++ idx.repr ++ ".a"

theorem id_eq (jobId : String) (op : GuestOp) : op.id jobId = jobId ++ op.suffix := by
  cases op <;> simp [id, suffix, Store.stepId, toString, String.append_assoc]

theorem length_suffix {op : GuestOp} (h : op.InRange) : op.suffix.length ≤ 31 := by
  have hnum : ∀ i : Nat, i < 2 ^ 64 → i.repr.length ≤ 20 := fun i hi =>
    (Nat.length_repr_le_iff (by omega)).mpr (by omega)
  cases op with
  | upload i =>
    have hi := hnum i h
    have hname : ".checkout.u".length = 11 := rfl
    rw [suffix, String.length_append, hname]
    omega
  | verify => decide
  | extract => decide
  | step i =>
    have hi := hnum i h
    have hdot : ".".length = 1 := rfl
    rw [suffix, String.length_append, hdot]
    omega
  | artifact i =>
    have hi := hnum i h
    have hdot : ".".length = 1 := rfl
    have hname : ".a".length = 2 := rfl
    rw [suffix, String.length_append, String.length_append, hdot, hname]
    omega

theorem isIdChar_repr {n : Nat} {c : Char} (h : c ∈ n.repr.toList) : isIdChar c = true := by
  rw [Nat.toList_repr] at h
  have hdigit := Nat.isDigit_of_mem_toDigits (by omega) (by omega) h
  simp [isIdChar, Char.isAlphanum, hdigit]

theorem isIdChar_suffix (op : GuestOp) : ∀ c ∈ op.suffix.toList, isIdChar c = true := by
  have hall : ([".checkout.u", ".checkout.uv", ".checkout.x", ".", ".a"].all fun name =>
      name.toList.all isIdChar) = true := by decide
  have hname : ∀ name ∈ [".checkout.u", ".checkout.uv", ".checkout.x", ".", ".a"],
      ∀ c ∈ name.toList, isIdChar c = true := fun name hmem =>
    List.all_eq_true.mp (List.all_eq_true.mp hall name hmem)
  intro c hc
  cases op with
  | upload i =>
    rw [suffix, String.toList_append, List.mem_append] at hc
    rcases hc with hc | hc
    · exact hname _ (by simp) c hc
    · exact isIdChar_repr hc
  | verify => exact hname ".checkout.uv" (by simp) c hc
  | extract => exact hname ".checkout.x" (by simp) c hc
  | step i =>
    rw [suffix, String.toList_append, List.mem_append] at hc
    rcases hc with hc | hc
    · exact hname _ (by simp) c hc
    · exact isIdChar_repr hc
  | artifact i =>
    rw [suffix, String.toList_append, String.toList_append, List.mem_append, List.mem_append] at hc
    rcases hc with (hc | hc) | hc
    · exact hname _ (by simp) c hc
    · exact isIdChar_repr hc
    · exact hname _ (by simp) c hc

theorem isIdChar_of_isTokenChar {c : Char} (h : isTokenChar c = true) : isIdChar c = true := by
  simp only [isTokenChar, Bool.or_eq_true, decide_eq_true_eq] at h
  simp only [isIdChar, Bool.or_eq_true, decide_eq_true_eq]
  tauto

theorem isTokenChar_of_isHexDigit {c : Char} (h : isHexDigit c = true) : isTokenChar c = true := by
  have hall : (['0', '1', '2', '3', '4', '5', '6', '7', '8', '9', 'a', 'b', 'c', 'd', 'e', 'f'].all
      isTokenChar) = true := by decide
  exact List.all_eq_true.mp hall c (of_decide_eq_true h)

/-- The daemon takes a short text in the alphabet of ids. -/
theorem validOperationId_of_letters {s : String} (hpos : 0 < s.length) (hlen : s.length ≤ 160)
    (h : ∀ c ∈ s.toList, isIdChar c = true) : validOperationId s = true := by
  have hascii : ∀ c ∈ s.toList, c.val ≤ 127 := by
    intro c hc
    have hchar := h c hc
    simp only [isIdChar, Bool.or_eq_true, decide_eq_true_eq] at hchar
    rcases hchar with ((halnum | rfl) | rfl) | rfl
    · exact Text.ascii_of_isAlphanum halnum
    · decide
    · decide
    · decide
  have hbytes := Text.utf8ByteSize_ofList hascii
  rw [String.ofList_toList, String.length_toList] at hbytes
  simp only [validOperationId, Bool.and_eq_true, Bool.not_eq_true', decide_eq_true_eq,
    List.all_eq_true]
  refine ⟨⟨?_, by omega⟩, h⟩
  rw [Bool.eq_false_iff, ne_eq, String.isEmpty_iff]
  rintro rfl
  exact absurd hpos (by decide)

end GuestOp

/-! ## The ids of a plan -/

/-- The id of a run is a text in the alphabet of subjects. -/
theorem tokenText_of_isRunId {run : String} (h : isRunId run = true) :
    TokenText run ∧ 0 < run.length ∧ run.length ≤ 21 := by
  simp only [isRunId, Bool.and_eq_true, Bool.not_eq_true', decide_eq_true_eq, List.all_eq_true,
    Bool.or_eq_true] at h
  obtain ⟨⟨hne, hlen⟩, hall⟩ := h
  refine ⟨fun c hc => ?_, ?_, hlen⟩
  · rcases hall c hc with hhex | rfl
    · exact GuestOp.isTokenChar_of_isHexDigit hhex
    · rfl
  · rw [Nat.pos_iff_ne_zero, ne_eq, String.length_eq_zero_iff]
    rintro rfl
    cases hne

theorem tokenText_of_isSubjectToken {s : String} (h : isSubjectToken s = true) : TokenText s := by
  simp only [isSubjectToken, Bool.and_eq_true, List.all_eq_true] at h
  exact h.2

/-- A job's id says its run and its key. -/
theorem jobId_inj {run run' key key' : String} (hrun : TokenText run) (hrun' : TokenText run')
    (h : Store.jobId run key = Store.jobId run' key') : run = run' ∧ key = key' := by
  have hdot : ∀ {s}, TokenText s → '.' ∉ s.toList := fun hs hmem =>
    absurd (hs _ hmem) (by decide)
  have hlist : run.toList ++ '.' :: key.toList = run'.toList ++ '.' :: key'.toList := by
    simpa [Store.jobId, toString] using congrArg String.toList h
  obtain ⟨hr, hk⟩ := Words.split_inj hlist (hdot hrun) (hdot hrun')
  exact ⟨String.toList_inj.mp hr, String.toList_inj.mp hk⟩

theorem id_jobId (run key : String) (op : GuestOp) :
    op.id (Store.jobId run key) = run ++ "." ++ key ++ op.suffix := by
  rw [GuestOp.id_eq]
  simp [Store.jobId, toString]

/-- The letters of the id of a command. -/
theorem isIdChar_id {run key : String} (hrun : isRunId run = true) (hkey : isSubjectToken key = true)
    (op : GuestOp) : ∀ c ∈ (op.id (Store.jobId run key)).toList, GuestOp.isIdChar c = true := by
  intro c hc
  rw [id_jobId, String.toList_append, String.toList_append, String.toList_append, List.mem_append,
    List.mem_append, List.mem_append] at hc
  rcases hc with ((hc | hc) | hc) | hc
  · exact GuestOp.isIdChar_of_isTokenChar ((tokenText_of_isRunId hrun).1 c hc)
  · obtain rfl : c = '.' := by simpa using hc
    rfl
  · exact GuestOp.isIdChar_of_isTokenChar (tokenText_of_isSubjectToken hkey c hc)
  · exact GuestOp.isIdChar_suffix op c hc

/-- **The id of a command is one the daemon takes.** -/
theorem validOperationId_id {run key : String} (hrun : isRunId run = true)
    (hkey : isSubjectToken key = true) (hlen : key.length ≤ 85) {op : GuestOp} (hop : op.InRange) :
    validOperationId (op.id (Store.jobId run key)) = true := by
  obtain ⟨-, hpos, hrunlen⟩ := tokenText_of_isRunId hrun
  have hsuffix := GuestOp.length_suffix hop
  have hdot : ".".length = 1 := rfl
  have hsize : (op.id (Store.jobId run key)).length =
      run.length + 1 + key.length + op.suffix.length := by
    rw [id_jobId, String.length_append, String.length_append, String.length_append, hdot]
  apply GuestOp.validOperationId_of_letters
  · omega
  · omega
  · exact isIdChar_id hrun hkey op

/-- What the names of a plan are for: subjects, and commands in the guests of its runs. -/
structure OperationIds {F : Type} (fl : Expr.Floats F) (plan : BuiltPlan) : Prop where
  keys_nodup : (plan.cells.map fun c => c.key).Nodup
  keys_token : ∀ c ∈ plan.cells, isSubjectToken c.key = true
  /-- The loop that picks a key ends in one that is not taken. -/
  loop_ends : ∀ base mtx index used, uniqueKey fl base mtx index used ∉ used
  valid : ∀ c ∈ plan.cells, ∀ (run : String) (op : GuestOp), isRunId run = true → op.InRange →
    validOperationId (op.id (Store.jobId run c.key)) = true
  unique : ∀ c ∈ plan.cells, ∀ c' ∈ plan.cells, ∀ (run run' : String) (op op' : GuestOp),
    isRunId run = true → isRunId run' = true →
    op.id (Store.jobId run c.key) = op'.id (Store.jobId run' c'.key) →
    run = run' ∧ c.key = c'.key ∧ op = op'

/-- **The ids of a plan are valid and say what they are for.** -/
theorem operationIds_ok {Y F : Type} (y : YamlCrate Y) (fl : Expr.Floats F) (path yaml : String)
    (wf : Workflow Y) (plan : BuiltPlan) (hparse : Workflow.parse y path yaml = .ok wf)
    (hbuild : Plan.build y fl wf = .ok plan) (hcount : plan.cells.length < 2 ^ 63) :
    OperationIds fl plan where
  keys_nodup := nodup_keys hbuild
  keys_token c hc := (keys_ok hparse hbuild hcount hc).1
  loop_ends := uniqueKey_notMem fl
  valid c hc run op hrun hop := by
    obtain ⟨htoken, hlen⟩ := keys_ok hparse hbuild hcount hc
    exact validOperationId_id hrun htoken hlen hop
  unique c _ c' _ run run' op op' hrun hrun' heq := by
    obtain ⟨hjob, hop⟩ := GuestOp.id_inj heq
    obtain ⟨hr, hk⟩ := jobId_inj (tokenText_of_isRunId hrun).1 (tokenText_of_isRunId hrun').1 hjob
    exact ⟨hr, hk, hop⟩

/-! ## Values that look alike -/

section Alike

/-- A document with no more than texts, lists and mappings. -/
private inductive Doc where
  | str (s : String)
  | seq (items : List Doc)
  | map (entries : List (Doc × Doc))

private def targets : Doc :=
  .map [(.str "target", .seq [.str "a/b", .str "a-b", .str "a b"])]

private def alikeJob : Job Doc where
  name := none
  uses := none
  vm := ⟨⟨none, none, true, none⟩, .firecracker, none, none, [], [], [], none⟩
  needs := []
  condition := none
  strategy := some ⟨some targets, none, true⟩
  env := []
  outputs := []
  continueOnError := false
  timeoutMinutes := none
  fallback := .none
  steps := [⟨⟨⟨none, none, none, none, some "true", false⟩, []⟩, [], none, none, none⟩]

/-- A crate that was given one document, with one job. -/
private def alikeCrate : YamlCrate Doc where
  header _ := .ok ⟨none, none, [], .map [(.str "build", .map [])]⟩
  job _ := .ok alikeJob
  filter _ := .ok .all
  asMapping
    | .map entries => some entries
    | _ => none
  asSequence
    | .seq items => some items
    | _ => none
  asStr
    | .str s => some s
    | _ => none
  isNull _ := false
  debug _ := ""
  toJson
    | .str s => .str s
    | _ => .null

private def alikePlan : Option BuiltPlan :=
  (Workflow.parse alikeCrate "build.yml" "").toOption.bind fun wf =>
    (Plan.build alikeCrate Expr.Floats.absent wf).toOption

/-- Values of a matrix that come to one text get keys of their own. -/
theorem alike_values_ids : ∃ plan : BuiltPlan, plan.cells.length = 3 ∧
    OperationIds Expr.Floats.absent plan := by
  have hlen : alikePlan.map (·.cells.length) = some 3 := by decide
  obtain ⟨plan, hplan, hthree⟩ := Option.map_eq_some_iff.mp hlen
  obtain ⟨wf, hwf, hbuild⟩ := Option.bind_eq_some_iff.mp hplan
  exact ⟨plan, hthree, operationIds_ok alikeCrate Expr.Floats.absent "build.yml" "" wf plan
    (Loop.ok_of_toOption hwf) (Loop.ok_of_toOption hbuild) (by omega)⟩

end Alike

end HeyoCi
