import Mathlib.Data.List.Perm.Subperm
import Mathlib.Data.List.Nodup

/-!
# Names that are not taken

* `first`: the first name of a sequence that is not taken; **`first_notMem`**: it is reached within
  one name more than are taken; `first_eq`: which one it is;
* `assign`: names for some items in turn, each one taken from then on; **`nodup_assign`**,
  `mem_assign`.
-/

universe u v

namespace Fresh

section Search

variable {α : Type u} [DecidableEq α]

/-- Try the names from `k` on; the last one is not looked up. -/
def search (names : Nat → α) (used : List α) : Nat → Nat → α
  | 0, k => names k
  | turns + 1, k => if names k ∈ used then search names used turns (k + 1) else names k

/-- The first name that is not taken. -/
def first (names : Nat → α) (used : List α) : α := search names used (used.length + 1) 0

theorem search_eq (names : Nat → α) (used : List α) (turns k : Nat) :
    ∃ i ≤ turns, search names used turns k = names (k + i) := by
  induction turns generalizing k with
  | zero => exact ⟨0, Nat.le_refl 0, rfl⟩
  | succ turns ih =>
    rw [search]
    split_ifs
    · obtain ⟨i, hi, heq⟩ := ih (k + 1)
      exact ⟨i + 1, by omega, by rw [heq]; congr 1; omega⟩
    · exact ⟨0, by omega, rfl⟩

variable {names : Nat → α} {used : List α}

/-- A search that ends in a taken name met taken names only. -/
theorem mem_of_search {turns k : Nat} (h : search names used turns k ∈ used) :
    ∀ i ≤ turns, names (k + i) ∈ used := by
  induction turns generalizing k with
  | zero =>
    intro i hi
    obtain rfl : i = 0 := by omega
    exact h
  | succ turns ih =>
    intro i hi
    rw [search] at h
    split_ifs at h with hk
    · cases i with
      | zero => exact hk
      | succ i =>
        have hmem := ih h i (by omega)
        rwa [show k + 1 + i = k + (i + 1) by omega] at hmem
    · exact absurd h hk

/-- **The search ends in a name that is not taken**, if all but the first name are different. -/
theorem first_notMem (hinj : ∀ i j, names (i + 1) = names (j + 1) → i = j) :
    first names used ∉ used := by
  intro hmem
  have hall := mem_of_search hmem
  have hnodup : ((List.range (used.length + 1)).map fun i => names (i + 1)).Nodup :=
    List.nodup_range.map fun i j h => hinj i j h
  have hsub : ((List.range (used.length + 1)).map fun i => names (i + 1)) ⊆ used := by
    intro a ha
    obtain ⟨i, hi, rfl⟩ := List.mem_map.mp ha
    have hlt := List.mem_range.mp hi
    have h := hall (i + 1) (by omega)
    rwa [show 0 + (i + 1) = i + 1 by omega] at h
  have hlen := (hnodup.subperm hsub).length_le
  rw [List.length_map, List.length_range] at hlen
  omega

theorem first_eq (names : Nat → α) (used : List α) :
    ∃ i ≤ used.length + 1, first names used = names i := by
  obtain ⟨i, hi, heq⟩ := search_eq names used (used.length + 1) 0
  exact ⟨i, hi, by rw [first, heq, Nat.zero_add]⟩

end Search

/-! ## Names in turn -/

section Assign

variable {α : Type u} {β : Type v} (pick : β → List α → α)

/-- A name for every item, with those that are taken by then. -/
def assign : List β → List α → List α
  | [], _ => []
  | b :: bs, used => pick b used :: assign bs (pick b used :: used)

variable {pick}

theorem length_assign (bs : List β) (used : List α) : (assign pick bs used).length = bs.length := by
  induction bs generalizing used with
  | nil => rfl
  | cons b bs ih => rw [assign, List.length_cons, List.length_cons, ih]

/-- **Names that were not taken when they were picked are all different.** -/
theorem nodup_assign (hpick : ∀ b used, pick b used ∉ used) (bs : List β) (used : List α) :
    (assign pick bs used).Nodup ∧ ∀ a ∈ assign pick bs used, a ∉ used := by
  induction bs generalizing used with
  | nil => exact ⟨List.nodup_nil, fun _ h => absurd h List.not_mem_nil⟩
  | cons b bs ih =>
    obtain ⟨hnodup, hnot⟩ := ih (pick b used :: used)
    rw [assign]
    refine ⟨List.nodup_cons.mpr ⟨fun hmem => hnot _ hmem List.mem_cons_self, hnodup⟩, ?_⟩
    intro a ha
    rcases List.mem_cons.mp ha with rfl | ha
    · exact hpick b used
    · exact fun hmem => hnot a ha (List.mem_cons_of_mem _ hmem)

/-- A name was picked for an item when fewer were taken than there are in the end. -/
theorem mem_assign {a : α} {bs : List β} {used : List α} (h : a ∈ assign pick bs used) :
    ∃ b ∈ bs, ∃ taken : List α, taken.length < used.length + bs.length ∧ a = pick b taken := by
  induction bs generalizing used with
  | nil => exact absurd h List.not_mem_nil
  | cons b bs ih =>
    rw [assign] at h
    rcases List.mem_cons.mp h with rfl | h
    · exact ⟨b, List.mem_cons_self, used, by rw [List.length_cons]; omega, rfl⟩
    · obtain ⟨b', hb', taken, hlen, rfl⟩ := ih h
      rw [List.length_cons] at hlen
      exact ⟨b', List.mem_cons_of_mem _ hb', taken, by rw [List.length_cons]; omega, rfl⟩

end Assign

end Fresh
