import Mathlib.Tactic.SplitIfs

/-!
# Offsets

A text whose letters take room, and places in it that are given as the room in front of them.

* `total`: the room of a text; `dropTo`: what stands behind an offset, if it is between two letters;
* `ceil`: the next offset that is between two letters;
* **`dropTo_append`**: behind the room of its first part stands the second part of a text.
-/

universe u

namespace Offsets

variable {α : Type u} (size : α → Nat)

/-- The room a text takes. -/
def total : List α → Nat
  | [] => 0
  | a :: as => size a + total as

/-- The text behind an offset. -/
def dropTo : List α → Nat → Option (List α)
  | as, 0 => some as
  | [], _ + 1 => none
  | a :: as, n + 1 => if size a ≤ n + 1 then dropTo as (n + 1 - size a) else none

/-- Go on from an offset to the next one between two letters, or to the end. -/
def ceil (as : List α) : Nat → Nat → Nat
  | 0, n => n
  | turns + 1, n => if n < total size as ∧ dropTo size as n = none then ceil as turns (n + 1) else n

variable {size}

theorem total_append (as bs : List α) : total size (as ++ bs) = total size as + total size bs := by
  induction as with
  | nil => rw [List.nil_append, total, Nat.zero_add]
  | cons a as ih => rw [List.cons_append, total, total, ih, Nat.add_assoc]

theorem total_pos (hsize : ∀ a, 0 < size a) {as : List α} (h : as ≠ []) : 0 < total size as := by
  cases as with
  | nil => exact absurd rfl h
  | cons a as => exact Nat.add_pos_left (hsize a) _

/-- **Behind the room of the first part stands the second part.** -/
theorem dropTo_append (hsize : ∀ a, 0 < size a) (as bs : List α) :
    dropTo size (as ++ bs) (total size as) = some bs := by
  induction as with
  | nil => rw [List.nil_append, total, dropTo]
  | cons a as ih =>
    have ha := hsize a
    obtain ⟨n, hn⟩ : ∃ n, total size (a :: as) = n + 1 :=
      Nat.exists_eq_succ_of_ne_zero (by rw [total]; omega)
    have hroom : n + 1 = size a + total size as := hn.symm
    rw [List.cons_append, hn, dropTo, if_pos (by omega), hroom, Nat.add_sub_cancel_left, ih]

theorem ceil_of_between {as rest : List α} {n : Nat} (h : dropTo size as n = some rest)
    (turns : Nat) : ceil size as turns n = n := by
  cases turns with
  | zero => rfl
  | succ turns =>
    rw [ceil, if_neg]
    rintro ⟨-, hnone⟩
    rw [h] at hnone
    cases hnone

end Offsets
