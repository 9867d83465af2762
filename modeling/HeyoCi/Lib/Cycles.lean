import Mathlib.Data.Fintype.EquivFin
import Mathlib.Data.Fintype.Sets
import Mathlib.Data.List.Chain
import Mathlib.Logic.Relation
import Mathlib.Order.WellFounded

/-!
# Cycles of a relation

* `IsCycle`: a list whose items are related one to the next, back to the first;
* **`isCycle_of_chain`**: a path that comes back to one of its items has one in it;
* `IsCycle.transGen`: its first item is related to itself over some steps;
* `Cleared`: items that lead to each other only, and on no cycle; **`Cleared.insert`**: so is one that
  leads to them;
* **`exists_source`**: of finitely many items on no cycle, one leads to none of them.
-/

universe u

namespace Cycles

open Relation

variable {α : Type u} {R : α → α → Prop}

/-- A cycle, its first item written at both ends. -/
structure IsCycle (R : α → α → Prop) (c : List α) : Prop where
  ends : c.head? = c.getLast?
  two : 2 ≤ c.length
  chain : c.IsChain R

theorem transGen_of_chain {a b : α} {l : List α} (h : (a :: (l ++ [b])).IsChain R) :
    TransGen R a b := by
  induction l generalizing a with
  | nil => exact .single (List.isChain_pair.mp h)
  | cons x l ih =>
    rw [List.cons_append, List.isChain_cons_cons] at h
    exact .head h.1 (ih h.2)

theorem IsCycle.transGen {c : List α} (h : IsCycle R c) : ∃ a, TransGen R a a := by
  obtain ⟨hends, htwo, hchain⟩ := h
  match c with
  | [] => exact absurd htwo (by simp)
  | [_] => exact absurd htwo (by simp)
  | a :: b :: l =>
    obtain ⟨init, hinit⟩ : ∃ init, b :: l = init ++ [a] := by
      have hne : b :: l ≠ [] := List.cons_ne_nil b l
      have hlast : (b :: l).getLast hne = a := by
        rw [List.head?_cons, List.getLast?_cons_cons, List.getLast?_eq_getLast_of_ne_nil hne,
          Option.some_inj] at hends
        exact hends.symm
      exact ⟨(b :: l).dropLast, by rw [← hlast, List.dropLast_append_getLast]⟩
    rw [hinit] at hchain
    exact ⟨a, transGen_of_chain hchain⟩

/-- **A path that comes back to an item has a cycle in it**, from where that item is. -/
theorem isCycle_of_chain [DecidableEq α] {path : List α} {a : α} (ha : a ∈ path)
    (h : (path ++ [a]).IsChain R) : IsCycle R (path.drop (path.idxOf a) ++ [a]) := by
  have hlt := List.idxOf_lt_length_of_mem ha
  obtain ⟨rest, hrest⟩ : ∃ rest, path.drop (path.idxOf a) = a :: rest := by
    rw [List.drop_eq_getElem_cons hlt, List.getElem_idxOf hlt]
    exact ⟨_, rfl⟩
  have hdrop : path.drop (path.idxOf a) ++ [a] = (path ++ [a]).drop (path.idxOf a) := by
    rw [List.drop_append_of_le_length (Nat.le_of_lt hlt)]
  refine ⟨?_, ?_, ?_⟩
  · rw [List.getLast?_concat, hrest]
    rfl
  · rw [hrest, List.length_append, List.length_cons, List.length_singleton]
    omega
  · rw [hdrop]
    exact h.drop _

/-! ## Items that are on no cycle -/

/-- The items lead to each other only, and are on no cycle. -/
structure Cleared (R : α → α → Prop) (D : α → Prop) : Prop where
  closed : ∀ a b, D a → R a b → D b
  acyclic : ∀ a, D a → ¬ TransGen R a a

variable {D : α → Prop}

theorem cleared_empty : Cleared R fun _ => False := ⟨fun _ _ h => h.elim, fun _ h => h.elim⟩

theorem Cleared.mem_of_transGen (h : Cleared R D) {a b : α} (ha : D a) (hab : TransGen R a b) :
    D b := by
  induction hab with
  | single hstep => exact h.closed _ _ ha hstep
  | tail _ hstep ih => exact h.closed _ _ ih hstep

/-- **An item that leads to cleared ones only is cleared with them.** -/
theorem Cleared.insert (h : Cleared R D) {a : α} (ha : ¬ D a) (hnext : ∀ b, R a b → D b) :
    Cleared R fun x => x = a ∨ D x := by
  refine ⟨?_, ?_⟩
  · rintro x b (rfl | hx) hstep
    · exact Or.inr (hnext b hstep)
    · exact Or.inr (h.closed x b hx hstep)
  · rintro x (rfl | hx) hcycle
    · obtain ⟨b, hstep, hback⟩ := TransGen.head'_iff.mp hcycle
      rcases reflTransGen_iff_eq_or_transGen.mp hback with rfl | hback
      · exact ha (hnext x hstep)
      · exact ha (h.mem_of_transGen (hnext b hstep) hback)
    · exact h.acyclic x hx hcycle

/-- **Of finitely many items on no cycle, one leads to none of them.** -/
theorem exists_source {items : List α} (hne : items ≠ [])
    (hacyclic : ∀ a ∈ items, ¬ TransGen R a a) : ∃ a ∈ items, ∀ b ∈ items, ¬ R a b := by
  classical
  let P : {a // a ∈ items} → {a // a ∈ items} → Prop := fun x y => TransGen R y.1 x.1
  have : IsTrans _ P := ⟨fun _ _ _ hxy hyz => hyz.trans hxy⟩
  have : Std.Irrefl P := ⟨fun x hx => hacyclic x.1 x.2 hx⟩
  have : Finite {a // a ∈ items} := @Finite.of_fintype _ (List.Subtype.fintype items)
  have hwf : WellFounded P := Finite.wellFounded_of_trans_of_irrefl P
  obtain ⟨first, hfirst⟩ := List.exists_mem_of_ne_nil items hne
  obtain ⟨m, -, hmin⟩ := hwf.has_min Set.univ ⟨⟨first, hfirst⟩, trivial⟩
  exact ⟨m.1, m.2, fun b hb hstep => hmin ⟨b, hb⟩ trivial (.single hstep)⟩

end Cycles
