import HeyoCi.Lib.Runs
import HeyoCi.Lib.Words
import HeyoCi.Store.Files

/-!
# Where artifacts go

An artifact is stored under the run, the job and its name, each reduced to the letters of paths and tags.

* `safe`: the reduction; `Alike`, **`safe_eq_iff`**: the texts it makes one;
* `DiskSink.path`, `S3Sink.keyFor`, `tagFor`: a file, a key and a tag;
* `diskPath_eq_iff`, `keyFor_eq_iff`, `tagFor_eq_iff`: the artifacts that have one;
* `OwnPlaces`: two artifacts have places of their own, and the files are below the root;
* **`ownPlaces_iff`**: so it is exactly when the artifacts are not alike, in a part of theirs and in the
  beginning of all of them.
-/

namespace HeyoCi

/-- Which run and job an artifact belongs to. -/
structure ArtifactRef where
  runId : String
  jobKey : String
  workflowId : String
  name : String
  deriving Repr, DecidableEq

/-- What a stored artifact is, once stored. -/
structure StoredArtifact where
  sink : String
  digest : Option String
  sizeBytes : Nat
  uri : String
  deriving Repr, DecidableEq

/-! ## The reduction -/

/-- A letter of the tag and path charset. -/
def isSafeChar (c : Char) : Bool := c.isAlphanum || c = '-' || c = '_' || c = '.'

def safe (s : String) : String :=
  let out := s.toList.map fun c => if isSafeChar c then c else '-'
  -- `..` as a whole component would traverse on the disk sink
  if out.all fun c => c = '.' then "-" else String.ofList out

/-- A text of dots only stands for a dash. -/
def shown (s : String) : List Char := if s.toList.all fun c => c = '.' then ['-'] else s.toList

/-- Texts that become one: as long as each other as they are shown, and alike letter by letter. -/
def Alike (s t : String) : Prop := List.Forall₂ (Words.FoldsAlike isSafeChar '-') (shown s) (shown t)

instance : DecidableRel Alike := fun _ _ => by unfold Alike; infer_instance

theorem toList_safe (s : String) :
    (safe s).toList = (shown s).map (Words.fold isSafeChar '-') := by
  have hdot : ∀ c, (decide (Words.fold isSafeChar '-' c = '.')) = decide (c = '.') := by
    intro c
    by_cases hc : c = '.'
    · subst hc
      rfl
    · by_cases hkeep : isSafeChar c = true
      · rw [Words.fold_of_keep hkeep]
      · have hsep : Words.fold isSafeChar '-' c = '-' :=
          Words.fold_eq_sep.mpr (Or.inl (Bool.eq_false_iff.mpr hkeep))
        rw [hsep]
        simp [hc]
  have hout : (s.toList.map fun c => if isSafeChar c then c else '-') =
      s.toList.map (Words.fold isSafeChar '-') := rfl
  have hall : ((s.toList.map (Words.fold isSafeChar '-')).all fun c => c = '.') =
      s.toList.all fun c => c = '.' := by
    rw [List.all_map]
    exact congrArg s.toList.all (funext hdot)
  rw [safe, shown, hout]
  simp only [hall]
  split_ifs
  · rfl
  · rw [String.toList_ofList]

/-- **What becomes one text.** -/
theorem safe_eq_iff (s t : String) : safe s = safe t ↔ Alike s t := by
  rw [← String.toList_inj, toList_safe, toList_safe]
  exact Words.map_fold_eq_iff (shown s) (shown t)

theorem isSafeChar_of_mem_safe {s : String} {c : Char} (h : c ∈ (safe s).toList) :
    isSafeChar c = true := by
  rw [toList_safe, List.mem_map] at h
  obtain ⟨d, -, rfl⟩ := h
  unfold Words.fold
  split_ifs with hkeep
  · exact hkeep
  · rfl

theorem slash_notMem_safe (s : String) : '/' ∉ (safe s).toList := fun h =>
  absurd (isSafeChar_of_mem_safe h) (by decide)

/-- What a text is reduced to is one step down. -/
theorem plainName_safe (s : String) : PlainName (safe s) := by
  have hdots : ¬ ∀ c ∈ (safe s).toList, c = '.' := by
    rw [safe]
    split_ifs with hall
    · exact fun h => absurd (h '-' List.mem_cons_self) (by decide)
    · rw [String.toList_ofList]
      exact fun h => hall (List.all_eq_true.mpr fun c hc => decide_eq_true (h c hc))
  refine ⟨fun h => hdots ?_, fun h => hdots ?_, fun h => hdots ?_, slash_notMem_safe s⟩
  · rw [h]
    exact List.forall_mem_nil _
  · rw [h]
    exact List.forall_mem_singleton.mpr rfl
  · rw [h]
    exact List.forall_mem_cons.mpr ⟨rfl, List.forall_mem_singleton.mpr rfl⟩

/-! ## The sinks -/

inductive ArtifactError where
  | io (e : String)
  | notImplemented (sink detail : String)
  deriving Repr, DecidableEq

/-- `Display`. -/
def ArtifactError.text : ArtifactError → String
  | io e => s!"writing an artifact: {e}"
  | notImplemented sink detail =>
    s!"the {sink} artifact sink is not implemented yet ({detail}). Set " ++
      "CI_ARTIFACT_SINK=disk or =artifacts."

namespace DiskSink

/-- The directory of a job's artifacts. -/
def parent (root : String) (r : ArtifactRef) : String :=
  joinPath (joinPath root (safe r.runId)) (safe r.jobKey)

/-- The file of an artifact. -/
def path (root : String) (r : ArtifactRef) : String := joinPath (parent root r) (safe r.name)

/-- `put`, where the host makes directories and writes files. -/
def put (createDirAll : String → Except String Unit) (write : String → Bytes → Except String Unit)
    (root : String) (r : ArtifactRef) (bytes : Bytes) : Except ArtifactError StoredArtifact :=
  match createDirAll (parent root r) with
  | .error e => .error (.io s!"{parent root r}: {e}")
  | .ok () => match write (path root r) bytes with
    | .error e => .error (.io s!"{path root r}: {e}")
    | .ok () => .ok ⟨"disk", none, bytes.length, path root r⟩

end DiskSink

namespace S3Sink

/-- `key_for`, below the prefix of the bucket. -/
def keyFor (pre : String) (r : ArtifactRef) : String :=
  let base := String.ofList (Runs.strip '/' pre.toList)
  s!"{base}/{safe r.runId}/{safe r.jobKey}/{safe r.name}"

/-- `put`, which is not there yet. -/
def put (bucket pre : String) (r : ArtifactRef) : Except ArtifactError StoredArtifact :=
  .error (.notImplemented "s3" s!"would upload {r.name} to s3://{bucket}/{keyFor pre r}")

end S3Sink

/-- `tag_for`. -/
def tagFor (r : ArtifactRef) : String :=
  let raw := s!"ci-{safe r.workflowId}-{safe r.runId}-{safe r.jobKey}-{safe r.name}"
  let tag := (raw.toList.take 64).dropWhile fun c => c = '-' || c = '.'
  if tag.isEmpty then "ci-artifact" else String.ofList tag

/-! ## The artifacts at one place -/

/-- The runs, the jobs and the names become one. -/
def ArtifactRef.AlikeParts (r r' : ArtifactRef) : Prop :=
  Alike r.runId r'.runId ∧ Alike r.jobKey r'.jobKey ∧ Alike r.name r'.name

/-- All that a tag says, before it is cut off. -/
def ArtifactRef.tagText (r : ArtifactRef) : List Char :=
  shown r.workflowId ++ '-' :: (shown r.runId ++ '-' :: (shown r.jobKey ++ '-' :: shown r.name))

/-- The beginnings of all that the tags say become one: 61 letters, behind `ci-`. -/
def ArtifactRef.AlikeTags (r r' : ArtifactRef) : Prop :=
  List.Forall₂ (Words.FoldsAlike isSafeChar '-') (r.tagText.take 61) (r'.tagText.take 61)

theorem below_path (root : String) (r : ArtifactRef) :
    Below root [safe r.runId, safe r.jobKey, safe r.name] (DiskSink.path root r) :=
  (((below_self root).join (plainName_safe r.runId)).join (plainName_safe r.jobKey)).join
    (plainName_safe r.name)

variable {r r' : ArtifactRef}

theorem alikeParts_iff : r.AlikeParts r' ↔
    safe r.runId = safe r'.runId ∧ safe r.jobKey = safe r'.jobKey ∧ safe r.name = safe r'.name := by
  rw [safe_eq_iff, safe_eq_iff, safe_eq_iff]
  exact Iff.rfl

/-- **Two artifacts are one file** exactly if their parts are alike. -/
theorem diskPath_eq_iff (root : String) :
    DiskSink.path root r = DiskSink.path root r' ↔ r.AlikeParts r' := by
  rw [alikeParts_iff]
  constructor
  · intro h
    have hbelow := below_path root r'
    rw [← h] at hbelow
    simpa using (below_path root r).names_inj hbelow
  · rintro ⟨hrun, hjob, hname⟩
    rw [DiskSink.path, DiskSink.path, DiskSink.parent, DiskSink.parent, hrun, hjob, hname]

theorem toList_keyFor (pre : String) (r : ArtifactRef) : (S3Sink.keyFor pre r).toList =
    Runs.strip '/' pre.toList ++ '/' :: ((safe r.runId).toList ++ '/' ::
      ((safe r.jobKey).toList ++ '/' :: (safe r.name).toList)) := by
  simp [S3Sink.keyFor, toString]

/-- **They are one key** exactly then. -/
theorem keyFor_eq_iff (pre : String) : S3Sink.keyFor pre r = S3Sink.keyFor pre r' ↔ r.AlikeParts r' := by
  rw [alikeParts_iff]
  constructor
  · intro h
    have hlist := congrArg String.toList h
    rw [toList_keyFor, toList_keyFor, List.append_cancel_left_eq, List.cons.injEq] at hlist
    obtain ⟨hrun, hrest⟩ := Words.split_inj hlist.2 (slash_notMem_safe _) (slash_notMem_safe _)
    obtain ⟨hjob, hname⟩ := Words.split_inj hrest (slash_notMem_safe _) (slash_notMem_safe _)
    exact ⟨String.toList_inj.mp hrun, String.toList_inj.mp hjob, String.toList_inj.mp hname⟩
  · rintro ⟨hrun, hjob, hname⟩
    rw [S3Sink.keyFor, S3Sink.keyFor, hrun, hjob, hname]

theorem toList_tagFor (r : ArtifactRef) : (tagFor r).toList =
    "ci-".toList ++ (r.tagText.take 61).map (Words.fold isSafeChar '-') := by
  have hdash : Words.fold isSafeChar '-' '-' = '-' := rfl
  have hraw : (s!"ci-{safe r.workflowId}-{safe r.runId}-{safe r.jobKey}-{safe r.name}").toList =
      "ci-".toList ++ r.tagText.map (Words.fold isSafeChar '-') := by
    rw [ArtifactRef.tagText]
    simp [toString, toList_safe, hdash]
  have htake : ("ci-".toList ++ r.tagText.map (Words.fold isSafeChar '-')).take 64 =
      "ci-".toList ++ (r.tagText.take 61).map (Words.fold isSafeChar '-') := by
    rw [List.take_append, List.map_take]
    rfl
  have hdrop : ∀ cs : List Char, ("ci-".toList ++ cs).dropWhile (fun c => c = '-' || c = '.') =
      "ci-".toList ++ cs := fun cs => rfl
  rw [tagFor]
  simp only [hraw, htake, hdrop]
  rw [if_neg (by simp), String.toList_ofList]

/-- **They are one tag** exactly if what the tags say begins alike. -/
theorem tagFor_eq_iff : tagFor r = tagFor r' ↔ r.AlikeTags r' := by
  rw [← String.toList_inj, toList_tagFor, toList_tagFor, List.append_cancel_left_eq]
  exact Words.map_fold_eq_iff _ _

/-- **Two artifacts have places of their own**: files, which are below the root, keys and tags. -/
structure OwnPlaces (root pre : String) (r r' : ArtifactRef) : Prop where
  disk : DiskSink.path root r ≠ DiskSink.path root r'
  s3 : S3Sink.keyFor pre r ≠ S3Sink.keyFor pre r'
  tag : tagFor r ≠ tagFor r'
  below : ∀ s ∈ [r, r'], ∃ names : List String, names ≠ [] ∧ Below root names (DiskSink.path root s)

/-- **Artifacts have places of their own exactly when they are not alike**, neither in all their parts
nor in what their tags begin with. -/
theorem ownPlaces_iff (root pre : String) (r r' : ArtifactRef) :
    OwnPlaces root pre r r' ↔ ¬ r.AlikeParts r' ∧ ¬ r.AlikeTags r' := by
  constructor
  · exact fun h => ⟨fun halike => h.disk ((diskPath_eq_iff root).mpr halike),
      fun halike => h.tag (tagFor_eq_iff.mpr halike)⟩
  · rintro ⟨hparts, htags⟩
    refine ⟨fun h => hparts ((diskPath_eq_iff root).mp h), fun h => hparts ((keyFor_eq_iff pre).mp h),
      fun h => htags (tagFor_eq_iff.mp h), fun s _ => ⟨_, List.cons_ne_nil _ _, below_path root s⟩⟩

/-- Two artifacts of one job whose names differ in a letter that is replaced. -/
theorem slash_and_dash_share : ¬ ∀ (root pre : String) (r r' : ArtifactRef),
    (r.runId, r.jobKey, r.name) ≠ (r'.runId, r'.jobKey, r'.name) → OwnPlaces root pre r r' := by
  intro h
  have hown := h "ci-artifacts" "ci" ⟨"018bcfe56800-00000000", "build", "app", "dist/app"⟩
    ⟨"018bcfe56800-00000000", "build", "app", "dist-app"⟩ (by decide)
  refine hown.disk ((diskPath_eq_iff _).mpr ?_)
  unfold ArtifactRef.AlikeParts
  decide

end HeyoCi
