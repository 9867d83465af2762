import HeyoCi.Image.Hashes
import HeyoCi.Submit.Handover
import HeyoCi.Workflow.Filter

/-!
# What a submit changed

The changed paths of a submit are what `git diff` prints of the bundle that was submitted, between the
commit that the client names and what the bundle's `HEAD` holds.

* `GitOutput`, `changedPaths`: the answers of git, and what is made of them;
* `Git.Diffs`: what is relied on of `git diff`;
* `changedPaths_known`: a diff that is known is complete;
* **`declined_iff`**: a filter declines a commit of its branches exactly if the diff is known and has
  nothing in it that the filter is about.
-/

namespace HeyoCi

open FileTree

/-! ## The answers of git -/

structure GitOutput where
  success : Bool
  stdout : Bytes
  stderr : Bytes
  deriving Repr, DecidableEq

/-- Git in the checkout, with some arguments; it may not run at all. -/
abbrev Git := List String → Except String GitOutput

section Changed

-- git, and `String::from_utf8_lossy`
variable (git : Git) (lossy : Bytes → String)

/-- The paths that `git diff -z` prints. -/
def diffPaths (stdout : Bytes) : List String :=
  (((lossy stdout).toList.splitOn '\x00').filter fun p => !p.isEmpty).map String.ofList

/-- `changed_paths`. -/
def changedPaths (ws : Workspace) (files : Files Bytes Bytes) (before : String) : Changes :=
  match ws.storedSource files with
  | none => .unknown "this run's submitted source is no longer on disk"
  | some (.tarGz, _) => .unknown ("the submit is a \x60--archive\x60 tarball, which carries no history " ++
      "to diff against. Submit a git bundle (the default) for path filters to have an answer")
  | some (.gitBundle, _) =>
    let before := Text.trim before
    if before.isEmpty then
      .unknown "the submitted commit has no parent, so there is nothing to diff against"
    else match git ["rev-parse", "--verify", "--quiet", before ++ "^\x7bcommit\x7d"] with
    | .error e => .unknown s!"could not run git to read the diff: {e}"
    | .ok found =>
      if !found.success then
        .unknown (s!"commit {before} is not in the submitted bundle, so there is nothing to diff " ++
          "against")
      -- a moved file is a change to both of its paths
      else match git ["diff", "--name-only", "--no-renames", "-z", before, "HEAD"] with
      | .error e => .unknown s!"could not run git to read the diff: {e}"
      | .ok out =>
        if !out.success then
          .unknown s!"git could not diff {before}..HEAD: {Text.trim (lossy out.stderr)}"
        else .ofPaths (diffPaths lossy out.stdout)

end Changed

/-! ## A diff is complete -/

/-- **What `git diff` prints** between the commit `before` and `HEAD`, where it succeeds and the paths are
texts: each path at which they differ, once, with a byte 0 behind it. A file is its content and its
mode. -/
structure Git.Diffs {β : Type*} (git : Git) (before : String) (old new : String → Option β) : Prop where
  printed : ∀ out, git ["diff", "--name-only", "--no-renames", "-z", before, "HEAD"] = .ok out →
    out.success = true → ∃ paths : List String, paths.Nodup ∧
      (∀ p ∈ paths, p ≠ "" ∧ '\x00' ∉ p.toList) ∧ (∀ p, p ∈ paths ↔ old p ≠ new p) ∧
      out.stdout = paths.flatMap fun p => utf8 p ++ [0]

section Complete

variable {β : Type*} {git : Git} {lossy : Bytes → String} {ws : Workspace} {files : Files Bytes Bytes}
  {before : String} {old new : String → Option β}

/-- Paths that end with a byte 0 are a text. -/
theorem flatMap_utf8 (paths : List String) : (paths.flatMap fun p => utf8 p ++ [0]) =
    utf8 (String.ofList (paths.flatMap fun p => p.toList ++ ['\x00'])) := by
  rw [utf8_eq_flatMap, String.toList_ofList, List.flatMap_assoc]
  refine congrArg (paths.flatMap ·) (funext fun p => ?_)
  rw [List.flatMap_append, utf8_eq_flatMap]
  rfl

theorem splitOn_flatMap {paths : List String} (h : ∀ p ∈ paths, '\x00' ∉ p.toList) :
    (paths.flatMap fun p => p.toList ++ ['\x00']).splitOn '\x00' =
      paths.map String.toList ++ [[]] := by
  induction paths with
  | nil => rfl
  | cons p paths ih =>
    rw [List.flatMap_cons, List.append_assoc, List.singleton_append,
      List.splitOn_append_cons_self_of_not_mem (h p List.mem_cons_self),
      ih fun q hq => h q (List.mem_cons_of_mem p hq)]
    rfl

/-- The paths are read back as they were printed. -/
theorem diffPaths_flatMap (hlossy : ∀ s : String, lossy (utf8 s) = s) {paths : List String}
    (h : ∀ p ∈ paths, p ≠ "" ∧ '\x00' ∉ p.toList) :
    diffPaths lossy (paths.flatMap fun p => utf8 p ++ [0]) = paths := by
  have hkept : ∀ cs ∈ paths.map String.toList, (!cs.isEmpty) = true := by
    intro cs hcs
    obtain ⟨p, hp, rfl⟩ := List.mem_map.mp hcs
    have hne : p.toList ≠ [] := fun hnil => (h p hp).1 (String.toList_eq_nil_iff.mp hnil)
    simpa using hne
  rw [diffPaths, flatMap_utf8, hlossy, String.toList_ofList, splitOn_flatMap fun p hp => (h p hp).2,
    List.filter_append, List.filter_eq_self.mpr hkept]
  simp

/-- Where git answers, its answer is the change set. -/
theorem changedPaths_of_diff {path : List Bytes} (hsource : ws.storedSource files = some (.gitBundle, path))
    (hbefore : (Text.trim before).isEmpty = false) {found out : GitOutput}
    (hfound : git ["rev-parse", "--verify", "--quiet", Text.trim before ++ "^\x7bcommit\x7d"] = .ok found)
    (hresolved : found.success = true)
    (hout : git ["diff", "--name-only", "--no-renames", "-z", Text.trim before, "HEAD"] = .ok out)
    (hsuccess : out.success = true) :
    changedPaths git lossy ws files before = .ofPaths (diffPaths lossy out.stdout) := by
  simp only [changedPaths, hsource, hbefore, hfound, hresolved, hout, hsuccess, Bool.not_true,
    Bool.false_eq_true, if_false]

/-- **A diff that is known has every path in it at which the trees differ**, and no other. -/
theorem changedPaths_known (hlossy : ∀ s : String, lossy (utf8 s) = s)
    (hgit : git.Diffs (Text.trim before) old new) {P : List String}
    (h : changedPaths git lossy ws files before = .known P) :
    P.Nodup ∧ ∀ p, p ∈ P ↔ old p ≠ new p := by
  unfold changedPaths at h
  split at h
  · cases h
  · cases h
  · simp only at h
    split_ifs at h
    split at h
    · cases h
    · split_ifs at h
      split at h
      · cases h
      · rename_i out hout
        split_ifs at h with hsuccess
        obtain ⟨paths, hnodup, hplain, hall, hprinted⟩ := hgit.printed out hout (by simpa using hsuccess)
        rw [hprinted, diffPaths_flatMap hlossy hplain, Changes.ofPaths] at h
        split_ifs at h
        cases h
        exact ⟨hnodup, hall⟩

/-- **When a commit is declined for its paths**: on a branch that a filter takes, exactly if what the
commit changed is known, and none of it is under `paths`, or there is some and all of it is under
`paths-ignore`. Whatever goes wrong with git, a filter declines nothing for it. -/
theorem declined_iff (hlossy : ∀ s : String, lossy (utf8 s) = s)
    (hgit : git.Diffs (Text.trim before) old new) {filter : SubmitFilter} {branch : String}
    (hbranch : filter.TakesBranch branch) :
    filter.admits branch (changedPaths git lossy ws files before) ≠ .ok () ↔
      ∃ P, changedPaths git lossy ws files before = .known P ∧ (∀ p, p ∈ P ↔ old p ≠ new p) ∧
        ((filter.paths ≠ [] ∧ ∀ p, old p ≠ new p → ∀ pat ∈ filter.paths,
            Paths.pathMatches pat p = false) ∨
          (filter.pathsIgnore ≠ [] ∧ (∃ p, old p ≠ new p) ∧ ∀ p, old p ≠ new p →
            ∃ pat ∈ filter.pathsIgnore, Paths.pathMatches pat p = true)) := by
  rw [Ne, SubmitFilter.admits_ok_iff]
  cases hchanges : changedPaths git lossy ws files before with
  | unknown reason =>
    refine iff_of_false (fun h => h ⟨hbranch, fun _ => rfl, rfl⟩) ?_
    rintro ⟨P, ⟨⟩, -⟩
  | known P =>
    obtain ⟨-, hall⟩ := changedPaths_known hlossy hgit hchanges
    have hany : (Changes.known P).matchesAny filter.paths = true ↔
        ∃ p, old p ≠ new p ∧ ∃ pat ∈ filter.paths, Paths.pathMatches pat p = true := by
      rw [Changes.matchesAny_known_iff]
      exact exists_congr fun p => and_congr_left' (hall p)
    have hignored : (Changes.known P).allMatch filter.pathsIgnore = true ↔
        filter.pathsIgnore ≠ [] ∧ (∃ p, old p ≠ new p) ∧ ∀ p, old p ≠ new p →
          ∃ pat ∈ filter.pathsIgnore, Paths.pathMatches pat p = true := by
      rw [Changes.allMatch_known_iff]
      refine and_congr_right fun _ => and_congr ⟨fun hP => ?_, ?_⟩ (forall_congr' fun p => by rw [hall])
      · obtain ⟨p, hp⟩ := List.exists_mem_of_ne_nil P hP
        exact ⟨p, (hall p).mp hp⟩
      · rintro ⟨p, hp⟩
        exact List.ne_nil_of_mem ((hall p).mpr hp)
    constructor
    · intro h
      refine ⟨P, rfl, hall, ?_⟩
      by_cases hpaths : filter.paths ≠ [] ∧ ¬ (Changes.known P).matchesAny filter.paths = true
      · refine Or.inl ⟨hpaths.1, fun p hp pat hpat => Bool.eq_false_iff.mpr fun hm => ?_⟩
        exact hpaths.2 (hany.mpr ⟨p, hp, pat, hpat, hm⟩)
      · refine Or.inr (hignored.mp (Bool.eq_true_of_not_eq_false fun hnone => h ⟨hbranch, ?_, hnone⟩))
        intro hne
        exact not_not.mp fun hno => hpaths ⟨hne, hno⟩
    · rintro ⟨-, -, -, ⟨hne, hnone⟩ | hall'⟩ ⟨-, hpaths, hkept⟩
      · obtain ⟨p, hp, pat, hpat, hm⟩ := hany.mp (hpaths hne)
        rw [hnone p hp pat hpat] at hm
        cases hm
      · rw [hignored.mpr hall'] at hkept
        cases hkept

end Complete

section Declined

/-- Git in a checkout where one file of the code has changed. -/
private def oneChanged : Git := fun args => .ok
  ⟨true, if args.head? = some "diff" then ["src/a.rs"].flatMap fun p => utf8 p ++ [0] else [], []⟩

private def fileAt (content : Nat) (p : String) : Option Nat :=
  if p = "src/a.rs" then some content else none

private def changedWorkspace : Workspace := ⟨[utf8 "r"], [utf8 "r.tar.gz"], [utf8 "r.bundle"]⟩

private def bundleKept : Files Bytes Bytes := fun p =>
  if p = changedWorkspace.bundle then some (.file []) else none

/-- A commit that changes the code is declined by a filter on the documentation. -/
theorem declined_iff_docs : SubmitFilter.admits ⟨[], [], ["docs/**"], []⟩ "main"
    (changedPaths oneChanged (fun b => (decode b).getD "") changedWorkspace bundleKept "abc") ≠
      .ok () := by
  have hlossy : ∀ s : String, (decode (utf8 s)).getD "" = s := fun s => by
    rw [decode_utf8, Option.getD_some]
  have htrim : Text.trim "abc" = "abc" := by decide
  have hplain : ∀ p ∈ ["src/a.rs"], p ≠ "" ∧ '\x00' ∉ p.toList := by simp
  have hdiffers : ∀ p, p ∈ ["src/a.rs"] ↔ fileAt 0 p ≠ fileAt 1 p := by
    intro p
    rw [List.mem_singleton, fileAt, fileAt]
    split_ifs with hp <;> simp [hp]
  have hfound : ∀ args, oneChanged ("rev-parse" :: args) = .ok ⟨true, [], []⟩ := fun args => by
    simp [oneChanged]
  have hout : ∀ args, oneChanged ("diff" :: args) =
      .ok ⟨true, ["src/a.rs"].flatMap fun p => utf8 p ++ [0], []⟩ := fun args => by
    simp [oneChanged]
  have hgit : oneChanged.Diffs (Text.trim "abc") (fileAt 0) (fileAt 1) := by
    refine ⟨fun out h _ => ⟨["src/a.rs"], List.nodup_singleton _, hplain, hdiffers, ?_⟩⟩
    rw [hout, Except.ok.injEq] at h
    rw [← h]
  have hsource : changedWorkspace.storedSource bundleKept =
      some (.gitBundle, changedWorkspace.bundle) := by
    have hkept : (bundleKept (changedWorkspace.pathFor .gitBundle)).isSome = true := by
      rw [Workspace.pathFor, bundleKept, if_pos rfl]
      rfl
    rw [Workspace.storedSource, List.findSome?_cons, if_pos hkept]
    rfl
  have hknown : changedPaths oneChanged (fun b => (decode b).getD "") changedWorkspace bundleKept
      "abc" = .known ["src/a.rs"] := by
    rw [changedPaths_of_diff hsource (by rw [htrim]; decide) (hfound _) rfl (hout _) rfl,
      diffPaths_flatMap hlossy hplain, Changes.ofPaths, if_neg (by decide)]
  have hbranch : SubmitFilter.TakesBranch ⟨[], [], ["docs/**"], []⟩ "main" := by
    constructor <;> simp
  refine (declined_iff hlossy hgit hbranch).mpr ⟨_, hknown, hdiffers, Or.inl ⟨?_, ?_⟩⟩
  · exact List.cons_ne_nil _ _
  · intro p hp pat hpat
    rw [List.mem_singleton.mp ((hdiffers p).mpr hp), List.mem_singleton.mp hpat]
    decide

end Declined

end HeyoCi
