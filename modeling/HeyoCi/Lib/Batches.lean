import Mathlib.Data.List.Perm.Subperm
import Mathlib.Order.Lattice

/-!
# Batches of the oldest first

Items are worked off in passes. A pass takes a batch of at most so many items, the oldest ones first,
and drops those of the batch that it can; the others stay and are taken again.

* `Batch`: what a pass may take; `Batch.below`: of old items alone; `remaining`: what a pass leaves;
* `stuck`, `Passes`: the items that can never be dropped, and any number of passes;
* `length_remaining`: what a pass drops at least;
* **`Passes.settle`**: while fewer items are stuck than a batch has, the others are dropped in the end;
* **`Batch.subset_oldest`**: as many old ones as a batch has are all that it takes.
-/

universe u v

namespace Batches

variable {α : Type u} {κ : Type v} [LinearOrder κ]

/-- A batch of the oldest items, in any order among equals. -/
structure Batch (key : α → κ) (limit : ℕ) (xs ys : List α) : Prop where
  nodup : ys.Nodup
  subset : ys ⊆ xs
  length : ys.length = min limit xs.length
  oldest : ∀ y ∈ ys, ∀ x ∈ xs, x ∉ ys → key y ≤ key x

instance [DecidableEq α] (key : α → κ) (limit : ℕ) (xs ys : List α) :
    Decidable (Batch key limit xs ys) :=
  decidable_of_iff (ys.Nodup ∧ (∀ y ∈ ys, y ∈ xs) ∧ ys.length = min limit xs.length ∧
      ∀ y ∈ ys, ∀ x ∈ xs, x ∉ ys → key y ≤ key x)
    ⟨fun ⟨h₁, h₂, h₃, h₄⟩ => ⟨h₁, h₂, h₃, h₄⟩, fun h => ⟨h.nodup, h.subset, h.length, h.oldest⟩⟩

/-- **A batch takes old items as if there were no others.** -/
theorem Batch.below {key : α → κ} {limit : ℕ} {xs ys : List α} (hxs : xs.Nodup)
    (h : Batch key limit xs ys) (bound : κ) : Batch key limit
      (xs.filter fun x => key x < bound) (ys.filter fun y => key y < bound) := by
  have hsub : (ys.filter fun y => key y < bound) ⊆ xs.filter fun x => key x < bound := by
    intro y hy
    rw [List.mem_filter] at hy ⊢
    exact ⟨h.subset hy.1, hy.2⟩
  have hnodup : (ys.filter fun y => key y < bound).Nodup := h.nodup.filter _
  refine ⟨hnodup, hsub, ?_, fun y hy x hx hnot => ?_⟩
  · by_cases hall : ∀ y ∈ ys, key y < bound
    · -- the batch has old items alone: it is full, or it has all that there is
      have hself : (ys.filter fun y => key y < bound) = ys :=
        List.filter_eq_self.mpr fun y hy => decide_eq_true (hall y hy)
      have hle : ys.length ≤ (xs.filter fun x => key x < bound).length :=
        (List.subperm_of_subset h.nodup (hself ▸ hsub)).length_le
      have hle' := List.length_filter_le (fun x => decide (key x < bound)) xs
      have hlen := h.length
      rw [hself]
      omega
    · -- an item that is not old is in the batch, so all old ones are
      simp only [not_forall, not_lt] at hall
      obtain ⟨y, hy, hbound⟩ := hall
      have hsub' : (xs.filter fun x => key x < bound) ⊆ ys.filter fun y => key y < bound := by
        intro x hx
        rw [List.mem_filter, decide_eq_true_eq] at hx
        refine List.mem_filter.mpr ⟨?_, decide_eq_true hx.2⟩
        by_contra hnot
        exact absurd (h.oldest y hy x hx.1 hnot) (not_le.mpr (hx.2.trans_le hbound))
      have hle := (List.subperm_of_subset hnodup hsub).length_le
      have hle' := (List.subperm_of_subset (hxs.filter _) hsub').length_le
      have hlimit := List.length_filter_le (fun y => decide (key y < bound)) ys
      have hlen := h.length
      omega
  · rw [List.mem_filter, decide_eq_true_eq] at hx
    rw [List.mem_filter, decide_eq_true_eq] at hy hnot
    exact h.oldest y hy.1 x hx.1 fun hmem => hnot ⟨hmem, hx.2⟩

section Passes

variable [DecidableEq α] (ok : α → Bool)

/-- What a pass leaves of the items. -/
def remaining (xs ys : List α) : List α := xs.filter fun x => !(decide (x ∈ ys) && ok x)

/-- The items that are not dropped whenever they are taken. -/
def stuck (xs : List α) : List α := xs.filter fun x => !ok x

/-- So many passes. -/
inductive Passes (key : α → κ) (limit : ℕ) : ℕ → List α → List α → Prop
  | done (xs : List α) : Passes key limit 0 xs xs
  | pass {n : ℕ} {xs ys zs : List α} : Batch key limit xs ys →
      Passes key limit n (remaining ok xs ys) zs → Passes key limit (n + 1) xs zs

variable {ok} {key : α → κ} {limit n : ℕ} {xs ys zs : List α}

/-- However it is said what a pass takes. -/
theorem filter_eq_remaining {p : α → Bool} (h : ∀ x ∈ xs, p x = true ↔ x ∈ ys) :
    (xs.filter fun x => !(p x && ok x)) = remaining ok xs ys := by
  refine List.filter_congr fun x hx => ?_
  by_cases hmem : x ∈ ys
  · rw [(h x hx).mpr hmem, decide_eq_true hmem]
  · rw [Bool.eq_false_iff.mpr (mt (h x hx).mp hmem), decide_eq_false hmem]

theorem stuck_remaining (xs ys : List α) : stuck ok (remaining ok xs ys) = stuck ok xs := by
  rw [stuck, stuck, remaining, List.filter_filter]
  refine List.filter_congr fun x _ => ?_
  cases ok x <;> simp

theorem nodup_remaining (h : xs.Nodup) : (remaining ok xs ys).Nodup := h.filter _

omit [DecidableEq α] in
theorem length_stuck_le (xs : List α) : (stuck ok xs).length ≤ xs.length := List.length_filter_le _ _

/-- A pass drops the items of its batch that are not stuck. -/
theorem length_remaining_add (hxs : xs.Nodup) (hbatch : Batch key limit xs ys) :
    (remaining ok xs ys).length + (ys.filter ok).length = xs.length := by
  have hsplit := List.length_eq_length_filter_add (l := xs) fun x => decide (x ∈ ys) && ok x
  have hperm : (xs.filter fun x => decide (x ∈ ys) && ok x).Perm (ys.filter ok) := by
    rw [List.perm_ext_iff_of_nodup (hxs.filter _) (hbatch.nodup.filter _)]
    intro x
    simp only [List.mem_filter, Bool.and_eq_true, decide_eq_true_eq]
    exact ⟨fun h => h.2, fun h => ⟨hbatch.subset h.1, h⟩⟩
  rw [hperm.length_eq] at hsplit
  rw [remaining]
  omega

/-- **What a pass leaves**: as much less as the batch has places for more than what is stuck. -/
theorem length_remaining (hxs : xs.Nodup) (hbatch : Batch key limit xs ys) :
    (remaining ok xs ys).length ≤ xs.length - (limit - (stuck ok xs).length) ∨
      (remaining ok xs ys).length ≤ (stuck ok xs).length := by
  have hadd : (remaining ok xs ys).length + (ys.filter ok).length = xs.length :=
    length_remaining_add hxs hbatch
  have hys := List.length_eq_length_filter_add (l := ys) ok
  have hfew : (ys.filter fun x => !ok x).length ≤ (stuck ok xs).length :=
    ((List.subperm_of_subset (hbatch.nodup.filter _) fun x hx => by
      rw [List.mem_filter] at hx
      exact List.mem_filter.mpr ⟨hbatch.subset hx.1, hx.2⟩)).length_le
  have hlen := hbatch.length
  rcases Nat.le_total limit xs.length with hle | hle
  · rw [Nat.min_eq_left hle] at hlen
    omega
  · rw [Nat.min_eq_right hle] at hlen
    omega

theorem Passes.stuck_eq (h : Passes ok key limit n xs zs) : stuck ok zs = stuck ok xs := by
  induction h with
  | done xs => rfl
  | pass _ _ ih => rw [ih, stuck_remaining]

theorem Passes.sublist (h : Passes ok key limit n xs zs) : zs.Sublist xs := by
  induction h with
  | done xs => exact List.Sublist.refl xs
  | pass _ _ ih => exact ih.trans List.filter_sublist

theorem Passes.length_le (hxs : xs.Nodup) (h : Passes ok key limit n xs zs) :
    zs.length ≤ xs.length - n * (limit - (stuck ok xs).length) ∨ zs.length ≤ (stuck ok xs).length := by
  induction h with
  | done xs => exact Or.inl (by omega)
  | @pass n xs ys zs hbatch hrest ih =>
    have hfirst : (remaining ok xs ys).length ≤ xs.length - (limit - (stuck ok xs).length) ∨
        (remaining ok xs ys).length ≤ (stuck ok xs).length := length_remaining hxs hbatch
    have hlater := ih (nodup_remaining hxs)
    have hshrink := hrest.sublist.length_le
    rw [stuck_remaining] at hlater
    rw [Nat.succ_mul]
    omega

/-- **The passes settle.** While fewer items are stuck than a batch has places, so many passes leave
nothing but what is stuck. -/
theorem Passes.settle (hxs : xs.Nodup) (h : Passes ok key limit n xs zs)
    (henough : xs.length - (stuck ok xs).length ≤ n * (limit - (stuck ok xs).length)) :
    zs = stuck ok xs := by
  have hlen : zs.length ≤ (stuck ok zs).length := by
    have hle := h.length_le hxs
    have hall : (stuck ok xs).length ≤ xs.length := length_stuck_le xs
    rw [h.stuck_eq]
    omega
  rw [← h.stuck_eq]
  exact ((List.filter_sublist (p := fun x => !ok x) (l := zs)).eq_of_length_le hlen).symm

/-- A batch is within the oldest items, if these fill it. -/
theorem Batch.subset_oldest (hbatch : Batch key limit xs ys) {bs : List α} (hbs : bs.Nodup)
    (hsub : bs ⊆ xs) (hfill : limit ≤ bs.length) (hold : ∀ b ∈ bs, ∀ x ∈ xs, x ∉ bs → key b < key x) :
    ys ⊆ bs := by
  intro y hy
  by_contra hnot
  -- one of the oldest is not in the batch, and it would have been taken before this item
  obtain ⟨b, hb, hby⟩ : ∃ b ∈ bs, b ∉ ys := by
    by_contra hall
    simp only [not_exists, not_and, not_not] at hall
    have hcons : (y :: bs).Subperm ys :=
      List.subperm_of_subset (List.nodup_cons.mpr ⟨hnot, hbs⟩) fun x hx => by
        rcases List.mem_cons.mp hx with rfl | hx
        · exact hy
        · exact hall x hx
    have hle := hcons.length_le
    have hlen := hbatch.length
    rw [List.length_cons] at hle
    omega
  exact absurd (hbatch.oldest y hy b (hsub hb) hby) (not_le.mpr (hold b hb y (hbatch.subset hy) hnot))

end Passes

end Batches
