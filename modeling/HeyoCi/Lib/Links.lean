import HeyoCi.Lib.FileTree

/-!
# Where paths lead while files are made

What is at each position of a file system, and where a path leads in it. A name with nothing behind it
leads to where it would be made, and the last name of a path may be that of a link that is not
followed.

* `Kind`, `Files`: what is at a position, and at each of them;
* `Leads`: where a path leads; `Path.Downward`: neither absolute nor with a `..`;
* `Tame`: a directory with downward links only; **`Tame.inside`**: no downward path leads out of it,
  whatever links are on the way, and **`Tame.link_inside`**: no link of it does;
* `Reached`: where the beginning of a path leads; `Change`: what a change to the files may be;
  **`Tame.change`**: what keeps a directory tame;
* `pursue`: follow a path with so much fuel; `leads_of_pursue`;
* `Edits`: what becomes of some positions; `Edits.apply_of_under`, `Tame.congr`: what is elsewhere.
-/

universe u v

namespace FileTree

inductive Kind (N : Type u) (C : Type v) where
  | file (content : C)
  | dir
  | link (target : Path N)
  deriving DecidableEq, Repr

abbrev Files (N : Type u) (C : Type v) := List N → Option (Kind N C)

variable {N : Type u} {C : Type v}

namespace Path

/-- Where a path starts, seen from a directory. -/
def start (path : Path N) (pos : List N) : List N := if path.absolute then [] else pos

/-- A path that is not absolute and has no `..`. -/
def Downward (path : Path N) : Prop := path.absolute = false ∧ Step.up ∉ path.steps

instance [DecidableEq N] (path : Path N) : Decidable path.Downward :=
  inferInstanceAs (Decidable (_ ∧ _))

theorem Downward.start {path : Path N} (h : path.Downward) (pos : List N) : path.start pos = pos := by
  rw [Path.start, h.1, if_neg Bool.false_ne_true]

end Path

/-- Where steps lead from a position. -/
inductive Leads (fs : Files N C) : List N → List (Step N) → List N → Prop
  | done (pos : List N) : Leads fs pos [] pos
  | here {pos : List N} {steps : List (Step N)} {q : List N} :
      Leads fs pos steps q → Leads fs pos (.here :: steps) q
  | up {pos : List N} {steps : List (Step N)} {q : List N} :
      Leads fs pos.dropLast steps q → Leads fs pos (.up :: steps) q
  | down {pos : List N} {n : N} {steps : List (Step N)} {q : List N} :
      (∀ target, fs (pos ++ [n]) ≠ some (.link target)) →
      Leads fs (pos ++ [n]) steps q → Leads fs pos (.name n :: steps) q
  /-- The last name is that of a link, and the link is meant. -/
  | stop (pos : List N) (n : N) : Leads fs pos [.name n] (pos ++ [n])
  | through {pos : List N} {n : N} {steps : List (Step N)} {q : List N} {target : Path N} :
      fs (pos ++ [n]) = some (.link target) →
      Leads fs (target.start pos) (target.steps ++ steps) q → Leads fs pos (.name n :: steps) q

/-! ## Directories with downward links -/

/-- A directory, and every link in it leads downwards. -/
structure Tame (fs : Files N C) (base : List N) : Prop where
  dir : fs base = some .dir
  links : ∀ p, base <+: p → ∀ target, fs p = some (.link target) → target.Downward

/-- A directory with nothing in it is tame. -/
theorem tame_of_empty {fs : Files N C} {base : List N} (hdir : fs base = some .dir)
    (hempty : ∀ p, base <+: p → p ≠ base → fs p = none) : Tame fs base := by
  refine ⟨hdir, fun p hp target hlink => ?_⟩
  by_cases hne : p = base
  · rw [hne, hdir] at hlink
    cases hlink
  · rw [hempty p hp hne] at hlink
    cases hlink

namespace Tame

variable {fs : Files N C} {base : List N}

/-- **Steps without `..` stay in a tame directory, through whatever links they go.** -/
theorem inside (h : Tame fs base) {pos q : List N} {steps : List (Step N)} (hpos : base <+: pos)
    (hup : Step.up ∉ steps) (hl : Leads fs pos steps q) : base <+: q := by
  induction hl with
  | done pos => exact hpos
  | here _ ih => exact ih hpos fun hmem => hup (List.mem_cons_of_mem _ hmem)
  | up _ _ => exact absurd List.mem_cons_self hup
  | down _ _ ih =>
    exact ih (hpos.trans (List.prefix_append _ _)) fun hmem => hup (List.mem_cons_of_mem _ hmem)
  | stop pos n => exact hpos.trans (List.prefix_append pos [n])
  | through hlink _ ih =>
    -- the target of the link is downward as well, and starts where the link is
    have htarget := h.links _ (hpos.trans (List.prefix_append _ _)) _ hlink
    refine ih ?_ ?_
    · rw [htarget.start]
      exact hpos
    · rw [List.mem_append, not_or]
      exact ⟨htarget.2, fun hmem => hup (List.mem_cons_of_mem _ hmem)⟩

/-- **A link in a tame directory leads to what is in the directory.** -/
theorem link_inside (h : Tame fs base) {p q : List N} {target : Path N} (hp : base <+: p)
    (hlink : fs p = some (.link target)) (hl : Leads fs (target.start p.dropLast) target.steps q) :
    base <+: q := by
  have htarget := h.links p hp target hlink
  rw [htarget.start] at hl
  refine h.inside ?_ htarget.2 hl
  have hne : p ≠ base := by
    rintro rfl
    rw [h.dir] at hlink
    cases hlink
  obtain ⟨rel, rfl⟩ := hp
  have hrel : rel ≠ [] := fun hnil => hne (by rw [hnil, List.append_nil])
  rw [List.dropLast_append_of_ne_nil hrel]
  exact List.prefix_append base rel.dropLast

end Tame

/-! ## Changes -/

/-- A position to which the beginning of a path leads, seen from a directory. -/
def Reached (fs : Files N C) (base : List N) (path : Path N) (q : List N) : Prop :=
  ∃ k, Leads fs (path.start base) (path.steps.take k) q

theorem Tame.reached {fs : Files N C} {base : List N} (h : Tame fs base) {path : Path N} {q : List N}
    (hpath : path.Downward) (hq : Reached fs base path q) : base <+: q := by
  obtain ⟨k, hl⟩ := hq
  rw [hpath.start] at hl
  exact h.inside (List.prefix_refl base) (fun hmem => hpath.2 (List.mem_of_mem_take hmem)) hl

/-- **A directory stays tame as long as the links that are made in it are downward.** -/
theorem Tame.change {fs fs' : Files N C} {base : List N} (h : Tame fs base)
    (hdir : ∀ p, fs p = some .dir → fs' p = some .dir)
    (hlinks : ∀ p target, base <+: p → fs' p = some (.link target) → fs p ≠ some (.link target) →
      target.Downward) : Tame fs' base := by
  refine ⟨hdir base h.dir, fun p hp target hlink => ?_⟩
  by_cases hold : fs p = some (.link target)
  · exact h.links p hp target hold
  · exact hlinks p target hp hlink hold

/-! ## Pursuing a path -/

/-- Follow steps, each link and each step at the cost of some fuel. -/
def pursue (fs : Files N C) : ℕ → List N → List (Step N) → Option (List N)
  | 0, _, _ => none
  | _ + 1, pos, [] => some pos
  | k + 1, pos, .here :: steps => pursue fs k pos steps
  | k + 1, pos, .up :: steps => pursue fs k pos.dropLast steps
  | k + 1, pos, .name n :: steps => match fs (pos ++ [n]) with
    | some (.link target) => pursue fs k (target.start pos) (target.steps ++ steps)
    | _ => pursue fs k (pos ++ [n]) steps

theorem leads_of_pursue {fs : Files N C} {k : ℕ} {pos p q : List N} {steps rest : List (Step N)}
    (h : pursue fs k pos steps = some p) (hrest : Leads fs p rest q) :
    Leads fs pos (steps ++ rest) q := by
  induction k generalizing pos steps with
  | zero => cases h
  | succ k ih =>
    cases steps with
    | nil =>
      cases h
      exact hrest
    | cons step steps =>
      cases step with
      | here => exact .here (ih h)
      | up => exact .up (ih h)
      | name n =>
        rw [pursue] at h
        split at h
        · rename_i target hlink
          refine .through hlink ?_
          rw [List.append_eq, ← List.append_assoc]
          exact ih h
        · rename_i hlink
          exact .down (fun target => hlink target) (ih h)

/-! ## Edits below a position -/

/-- What is below a directory alone says whether it is tame. -/
theorem Tame.congr {fs fs' : Files N C} {base : List N} (h : Tame fs base)
    (heq : ∀ p, base <+: p → fs' p = fs p) : Tame fs' base := by
  refine ⟨(heq base List.prefix_rfl).trans h.dir, fun p hp target hlink => ?_⟩
  rw [heq p hp] at hlink
  exact h.links p hp target hlink

/-- What becomes of some positions. -/
abbrev Edits (N : Type u) (C : Type v) := List (List N × Option (Kind N C))

namespace Edits

variable [DecidableEq N]

def apply (edits : Edits N C) (fs : Files N C) : Files N C := fun p => (edits.lookup p).getD (fs p)

/-- Only what is at or below a position is changed. -/
def Under (edits : Edits N C) (base : List N) : Prop := ∀ e ∈ edits, base <+: e.1

instance (edits : Edits N C) (base : List N) : Decidable (edits.Under base) :=
  inferInstanceAs (Decidable (∀ e ∈ edits, _))

theorem apply_of_under {edits : Edits N C} {base : List N} (h : edits.Under base) (fs : Files N C)
    {p : List N} (hp : ¬ base <+: p) : edits.apply fs p = fs p := by
  have hnone : edits.lookup p = none := by
    rw [List.lookup_eq_none_iff]
    intro e he
    rw [bne_iff_ne]
    rintro rfl
    exact hp (h e he)
  rw [apply, hnone]
  rfl

end Edits

end FileTree
