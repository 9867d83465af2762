import Mathlib.Algebra.GroupWithZero.Nat
import Mathlib.Data.List.Perm.Basic

/-!
# Actors addressed by their place in a list

A concurrent system keeps the actors of one kind in a list, and a step of an actor puts its next
state at the same place or removes it when it is done.

* `Actors.put`: the list after the actor at place `i` moved;
* `Actors.mem_put`, `Actors.mem_put_self`, `Actors.mem_put_other`: who is in it;
* `Actors.mem_put_distinct`: who is in it, when the actors are told apart;
* `Actors.perm_put`: the others, and the one that moved;
* `Actors.map_put_sublist`: what a move leaves alone;
* `Actors.sum_put`: what they weigh.
-/

universe u v

namespace Actors

variable {α : Type u} {l : List α} {i : Nat} {a b : α} {o : Option α}

/-- The actor at place `i` moved to `o`, or left. -/
def put (l : List α) (i : Nat) : Option α → List α
  | some a => l.set i a
  | none => l.eraseIdx i

/-- Who is there after the move was there before or is the one that moved. -/
theorem mem_put (h : b ∈ put l i o) : b ∈ l ∨ o = some b := by
  cases o with
  | none => exact Or.inl (List.mem_of_mem_eraseIdx h)
  | some a =>
    rcases List.mem_or_eq_of_mem_set h with h | rfl
    · exact Or.inl h
    · exact Or.inr rfl

/-- Nobody comes when one leaves. -/
theorem mem_put_none (h : b ∈ put l i none) : b ∈ l := List.mem_of_mem_eraseIdx h

theorem mem_put_self (hi : l[i]? = some a) : b ∈ put l i (some b) := by
  obtain ⟨hlt, -⟩ := List.getElem?_eq_some_iff.mp hi
  exact List.mem_set hlt b

/-- Everybody but the one that moved is still there. -/
theorem mem_put_other (hi : l[i]? = some a) (hb : b ∈ l) : b = a ∨ b ∈ put l i o := by
  obtain ⟨hlt, ha⟩ := List.getElem?_eq_some_iff.mp hi
  obtain ⟨j, hj, rfl⟩ := List.mem_iff_getElem.mp hb
  by_cases hij : j = i
  · subst hij
    exact Or.inl ha
  · right
    cases o with
    | none =>
      exact List.mem_eraseIdx_iff_getElem.mpr ⟨j, hj, hij, rfl⟩
    | some c =>
      refine List.mem_iff_getElem.mpr ⟨j, by simpa [put] using hj, ?_⟩
      simp only [put]
      rw [List.getElem_set_ne (by omega)]

/-- Who is there after the move: everybody else, and the one that moved if it did not leave. -/
theorem mem_put_iff (hi : l[i]? = some a) : b ∈ put l i o ↔ b ∈ put l i none ∨ o = some b := by
  obtain ⟨hlt, -⟩ := List.getElem?_eq_some_iff.mp hi
  cases o with
  | none => simp
  | some c =>
    rw [put, put, List.mem_eraseIdx_iff_getElem, List.mem_iff_getElem, Option.some.injEq]
    simp only [List.length_set]
    constructor
    · rintro ⟨j, hj, rfl⟩
      by_cases hij : i = j
      · subst hij
        exact Or.inr (List.getElem_set_self _).symm
      · exact Or.inl ⟨j, hj, Ne.symm hij, (List.getElem_set_ne hij _).symm⟩
    · rintro (⟨j, hj, hij, rfl⟩ | rfl)
      · exact ⟨j, hj, List.getElem_set_ne (Ne.symm hij) _⟩
      · exact ⟨i, hlt, List.getElem_set_self _⟩

theorem mem_put_of_ne (hi : l[i]? = some a) (hb : b ∈ l) (hne : b ≠ a) : b ∈ put l i o :=
  (mem_put_other hi hb).resolve_left hne

/-- Before and after a move there are the same others. -/
theorem perm_put (hi : l[i]? = some a) (o : Option α) :
    l.Perm (a :: l.eraseIdx i) ∧ (put l i o).Perm (o.toList ++ l.eraseIdx i) := by
  obtain ⟨hlt, rfl⟩ := List.getElem?_eq_some_iff.mp hi
  refine ⟨(List.getElem_cons_eraseIdx_perm hlt).symm, ?_⟩
  cases o with
  | none => exact List.Perm.refl _
  | some b => exact List.set_perm_cons_eraseIdx hlt b

/-- Among actors that are told apart, the others are not the one that moved. -/
theorem mem_put_distinct {β : Type v} {f : α → β} (hd : (l.map f).Nodup) (hi : l[i]? = some a)
    (hb : b ∈ put l i o) : (b ∈ l ∧ b ≠ a) ∨ o = some b := by
  rcases (mem_put_iff hi).mp hb with hb | hb
  · refine Or.inl ⟨mem_put_none hb, ?_⟩
    rintro rfl
    have hnd := ((perm_put hi none).1.map f).nodup_iff.mp hd
    rw [List.map_cons, List.nodup_cons] at hnd
    exact hnd.1 (List.mem_map_of_mem hb)
  · exact Or.inr hb

/-- What a move does not change of the one that moves, it changes of nobody. -/
theorem map_put_sublist {β : Type v} {f : α → β} (hi : l[i]? = some a)
    (h : ∀ b, o = some b → f b = f a) : ((put l i o).map f).Sublist (l.map f) := by
  cases o with
  | none => exact (List.eraseIdx_sublist l i).map f
  | some b =>
    obtain ⟨hlt, rfl⟩ := List.getElem?_eq_some_iff.mp hi
    have hlt' : i < (l.map f).length := by rwa [List.length_map]
    have hget : f b = (l.map f)[i] := by rw [h b rfl, List.getElem_map]
    rw [put, List.map_set, hget, List.set_getElem_self]

/-- A move takes off the weight of the one that moved and puts on its new one. -/
theorem sum_put (weight : α → Nat) (hi : l[i]? = some a) (o : Option α) :
    ((put l i o).map weight).sum + weight a = (l.map weight).sum + o.elim 0 weight := by
  obtain ⟨hbefore, hafter⟩ := perm_put hi o
  have hsum := (hbefore.map weight).sum_nat
  have hsum' := (hafter.map weight).sum_nat
  rw [List.map_cons, List.sum_cons] at hsum
  rw [List.map_append, List.sum_append] at hsum'
  cases o with
  | none =>
    simp only [Option.toList_none, List.map_nil, List.sum_nil] at hsum'
    simp only [Option.elim_none]
    omega
  | some b =>
    simp only [Option.toList_some, List.map_cons, List.map_nil, List.sum_cons, List.sum_nil] at hsum'
    simp only [Option.elim_some]
    omega

end Actors
