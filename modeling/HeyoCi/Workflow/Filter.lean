import Mathlib.Data.List.Perm.Subperm
import HeyoCi.Dispatch.Decide
import HeyoCi.Expr.Values
import HeyoCi.Workflow.File

/-!
# Filters on branches and changed paths

A change set that is not known has every path in it.

* `Changes.ofPaths`, `Changes.matchesAny`, `Changes.allMatch`: a diff, and the patterns it meets;
* `SubmitFilter.admits`: whether a commit is built;
* `ofPaths_cases`: of two diffs the larger one is not known, or both are;
* **`admits_mono`**: what admits a diff admits a larger one, and one that is not known;
* **`call_changed`**: `changed(..)` in a condition says what a filter would.
-/

namespace HeyoCi

/-! ## Change sets -/

namespace Changes

def maxChangedPaths : Nat := 5000

/-- `Changes::known`: a diff, unless it is too large to be kept. -/
def ofPaths (paths : List String) : Changes :=
  if paths.length > maxChangedPaths then
    .unknown (s!"the diff touches {paths.length} paths, over the {maxChangedPaths} this records; " ++
      "treating every path filter as matched")
  else .known paths

def matchesAny (patterns : List String) : Changes → Bool
  | unknown _ => true
  | known paths => patterns.any fun pat => paths.any (Paths.pathMatches pat)

/-- No answer and no paths are not a match of all of them. -/
def allMatch (patterns : List String) : Changes → Bool
  | unknown _ => false
  | known paths => !paths.isEmpty && !patterns.isEmpty &&
      paths.all fun p => patterns.any fun pat => Paths.pathMatches pat p

def display : Changes → String
  | known paths => s!"{paths.length} path(s) changed"
  | unknown reason => s!"changed paths unknown: {reason}"

end Changes

namespace SubmitFilter

variable (filter : SubmitFilter) (branch : String) (changes : Changes)

/-- `SubmitFilter::admits`. -/
def admits : Except String Unit :=
  if !filter.branches.isEmpty && !filter.branches.any (Paths.pathMatches · branch) then
    .error s!"branch {Text.debugStr branch} is not in `branches: [{Text.join filter.branches}]`"
  else match filter.branchesIgnore.find? (Paths.pathMatches · branch) with
  | some hit => .error s!"branch {Text.debugStr branch} matches `branches-ignore: {hit}`"
  | none =>
    if !filter.paths.isEmpty && !changes.matchesAny filter.paths then
      .error s!"nothing under `paths: [{Text.join filter.paths}]` changed ({changes.display})"
    else if changes.allMatch filter.pathsIgnore then
      .error s!"every changed path matches `paths-ignore: [{Text.join filter.pathsIgnore}]`"
    else .ok ()

/-- The branch is built, as far as it goes. -/
def TakesBranch : Prop :=
  (filter.branches ≠ [] → ∃ p ∈ filter.branches, Paths.pathMatches p branch = true) ∧
    ∀ p ∈ filter.branchesIgnore, ¬ Paths.pathMatches p branch = true

variable {filter branch changes}

theorem admits_ok_iff : filter.admits branch changes = .ok () ↔ filter.TakesBranch branch ∧
    (filter.paths ≠ [] → changes.matchesAny filter.paths = true) ∧
      changes.allMatch filter.pathsIgnore = false := by
  unfold admits TakesBranch
  rw [← List.any_eq_true, ← List.find?_eq_none]
  have hb : (!filter.branches.isEmpty && !filter.branches.any (Paths.pathMatches · branch)) = true ↔
      ¬ (filter.branches ≠ [] → filter.branches.any (Paths.pathMatches · branch) = true) := by
    simp
  have hp : (!filter.paths.isEmpty && !changes.matchesAny filter.paths) = true ↔
      ¬ (filter.paths ≠ [] → changes.matchesAny filter.paths = true) := by
    simp
  by_cases hbranch : filter.branches ≠ [] → filter.branches.any (Paths.pathMatches · branch) = true
  · rw [if_neg fun h => hb.mp h hbranch]
    cases filter.branchesIgnore.find? (Paths.pathMatches · branch) with
    | some hit => exact iff_of_false nofun fun h => nomatch h.1.2
    | none =>
      dsimp only
      by_cases hpath : filter.paths ≠ [] → changes.matchesAny filter.paths = true
      · rw [if_neg fun h => hp.mp h hpath]
        cases changes.allMatch filter.pathsIgnore with
        | true => exact iff_of_false nofun fun h => nomatch h.2.2
        | false => exact iff_of_true rfl ⟨⟨hbranch, rfl⟩, hpath, rfl⟩
      · rw [if_pos (hp.mpr hpath)]
        exact iff_of_false nofun fun h => hpath h.2.1
  · rw [if_pos (hb.mpr hbranch)]
    exact iff_of_false nofun fun h => hbranch h.1.1

end SubmitFilter

/-! ## More changes -/

namespace Changes

variable {patterns P Q : List String}

theorem matchesAny_known_iff : (known P).matchesAny patterns = true ↔
    ∃ p ∈ P, ∃ pat ∈ patterns, Paths.pathMatches pat p = true := by
  simp only [matchesAny, List.any_eq_true]
  constructor
  · rintro ⟨pat, hpat, p, hp, hmatch⟩
    exact ⟨p, hp, pat, hpat, hmatch⟩
  · rintro ⟨p, hp, pat, hpat, hmatch⟩
    exact ⟨pat, hpat, p, hp, hmatch⟩

theorem allMatch_known_iff : (known P).allMatch patterns = true ↔
    patterns ≠ [] ∧ P ≠ [] ∧ ∀ p ∈ P, ∃ pat ∈ patterns, Paths.pathMatches pat p = true := by
  simp only [allMatch, Bool.and_eq_true, List.all_eq_true, List.any_eq_true, Bool.not_eq_true',
    List.isEmpty_eq_false_iff]
  constructor
  · rintro ⟨⟨hP, hpatterns⟩, h⟩
    exact ⟨hpatterns, hP, h⟩
  · rintro ⟨hpatterns, hP, h⟩
    exact ⟨⟨hP, hpatterns⟩, h⟩

theorem matchesAny_mono (h : P ⊆ Q) (hm : (known P).matchesAny patterns = true) :
    (known Q).matchesAny patterns = true := by
  rw [matchesAny_known_iff] at hm ⊢
  obtain ⟨p, hp, hmatch⟩ := hm
  exact ⟨p, h hp, hmatch⟩

/-- A path that nothing ignores is there in a larger set too. -/
theorem allMatch_mono (hne : P ≠ []) (h : P ⊆ Q) (ha : (known P).allMatch patterns = false) :
    (known Q).allMatch patterns = false := by
  rw [Bool.eq_false_iff] at ha ⊢
  intro hQ
  obtain ⟨hpatterns, -, hall⟩ := allMatch_known_iff.mp hQ
  exact ha (allMatch_known_iff.mpr ⟨hpatterns, hne, fun p hp => hall p (h hp)⟩)

/-- Of two diffs the larger one is not known, or both are. -/
theorem ofPaths_cases (hP : P.Nodup) (h : P ⊆ Q) :
    (∃ reason, ofPaths Q = unknown reason) ∨ (ofPaths P = known P ∧ ofPaths Q = known Q) := by
  have hlen : P.length ≤ Q.length := (List.subperm_of_subset hP h).length_le
  unfold ofPaths
  by_cases hQ : Q.length > maxChangedPaths
  · exact Or.inl ⟨_, if_pos hQ⟩
  · right
    rw [if_neg hQ, if_neg (by omega)]
    exact ⟨rfl, rfl⟩

end Changes

namespace SubmitFilter

variable {filter : SubmitFilter} {branch : String} {P Q : List String}

/-- What is not known is admitted where anything is. -/
theorem admits_unknown {changes : Changes} (h : filter.admits branch changes = .ok ())
    (reason : String) : filter.admits branch (.unknown reason) = .ok () := by
  rw [admits_ok_iff] at h ⊢
  exact ⟨h.1, fun _ => rfl, rfl⟩

/-- **More changes are never built less**: a filter that admits a diff admits every larger one, kept or
not, and a change set that could not be read. -/
theorem admits_mono (hP : P.Nodup) (hne : P ≠ []) (hsub : P ⊆ Q) :
    (filter.admits branch (.ofPaths P) = .ok () → filter.admits branch (.ofPaths Q) = .ok ()) ∧
      (filter.admits branch (.known P) = .ok () →
        ∀ reason, filter.admits branch (.unknown reason) = .ok ()) := by
  refine ⟨fun h => ?_, fun h => admits_unknown h⟩
  rcases Changes.ofPaths_cases hP hsub with ⟨reason, hQ⟩ | ⟨hPk, hQk⟩
  · rw [hQ]
    exact admits_unknown h reason
  · rw [hPk, admits_ok_iff] at h
    rw [hQk, admits_ok_iff]
    obtain ⟨hbranch, hmatch, hall⟩ := h
    refine ⟨hbranch, fun hpaths => ?_, ?_⟩
    · exact Changes.matchesAny_mono hsub (hmatch hpaths)
    · exact Changes.allMatch_mono hne hsub hall

theorem docs_and_code_admitted :
    SubmitFilter.admits ⟨["main"], [], [], ["docs/**"]⟩ "main" (.ofPaths ["src/a.rs", "docs/b"]) =
      .ok () := by
  apply (admits_mono (by decide : ["src/a.rs"].Nodup) (by decide) (by simp)).1
  decide

end SubmitFilter

/-! ## Conditions -/

section Condition

variable {F : Type} {fl : Expr.Floats F} {ctx : Json.Obj} {run : Run}

theorem changed_eq (hci : Json.Obj.get ctx "ci" = some (ciScope (some run)))
    (patterns : List String) :
    Expr.changed fl ctx (patterns.map .str) = run.changes.matchesAny patterns := by
  have hknown : Expr.lookup ctx ["ci", "changes_known"] = .bool run.changes.isKnown := by
    rw [Expr.lookup, hci]
    rfl
  have hfiles : Expr.lookup ctx ["ci", "changed_files"] = .arr (run.changes.paths.map .str) := by
    rw [Expr.lookup, hci]
    rfl
  unfold Expr.changed
  rw [hknown, hfiles]
  cases run.changes with
  | unknown reason => rfl
  | known paths =>
    simp only [Expr.truthy, Changes.isKnown, Changes.paths, Changes.matchesAny, List.any_map,
      Bool.not_true, Bool.false_eq_true, if_false, Function.comp_def, Expr.toDisplay]

/-- **`changed(..)` is what a `paths:` filter of its patterns says of the run's change set.** -/
theorem call_changed (hci : Json.Obj.get ctx "ci" = some (ciScope (some run)))
    (patterns : List String) : Expr.call fl ctx "changed" (patterns.map .str) =
      .ok (.bool (run.changes.matchesAny patterns)) := by
  have heq : Expr.changed fl ctx (patterns.map .str) = run.changes.matchesAny patterns :=
    changed_eq hci patterns
  simp only [Expr.call, heq]

/-- A push to `main` that changes one file. -/
private def readmeRun : Run where
  id := "r1"
  workflowId := "w1"
  workflowPath := ".ci/workflows/ci.yml"
  workflowName := none
  repoUrl := "https://git.example/app.git"
  repoId := none
  gitRef := "refs/heads/main"
  sha := "9183de2"
  beforeSha := "5e1c309"
  changes := .known ["README.md"]
  status := .queued
  error := none
  createdAt := 0
  startedAt := none
  finishedAt := none

theorem readme_changed : Expr.call .absent [("ci", ciScope (some readmeRun))] "changed"
    ([.str "src/**", .str "*.md"]) = .ok (.bool true) := by
  have hcall : Expr.call .absent [("ci", ciScope (some readmeRun))] "changed" _ = _ :=
    call_changed rfl ["src/**", "*.md"]
  rw [show readmeRun.changes.matchesAny ["src/**", "*.md"] = true by decide] at hcall
  exact hcall

end Condition

end HeyoCi
