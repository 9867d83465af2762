import Mathlib.Data.List.Induction

/-!
# Since

The histories of a system are lists, the latest event last.

* `Since P Q`: an event had `P`, and all events after it have `Q`;
* `since_concat`: the law of one more event;
* **`since_iff_of_step`**: what keeps that law is true of the histories with `Since P Q`.
-/

universe u

namespace History

variable {α : Type u} {P : List α → α → Prop} {Q : α → Prop} {as : List α}

/-- An event had `P`, in the history before it, and since then all have `Q`. -/
def Since (P : List α → α → Prop) (Q : α → Prop) (as : List α) : Prop :=
  ∃ before a after, as = before ++ a :: after ∧ P before a ∧ ∀ b ∈ after, Q b

theorem not_since_nil : ¬ Since P Q [] := by
  rintro ⟨before, a, after, h, -, -⟩
  exact absurd h (by simp)

theorem since_concat (a : α) : Since P Q (as ++ [a]) ↔ P as a ∨ (Since P Q as ∧ Q a) := by
  constructor
  · rintro ⟨before, b, after, h, hP, hQ⟩
    rcases List.eq_nil_or_concat after with rfl | ⟨after, c, rfl⟩
    · obtain ⟨rfl, hb⟩ := List.append_inj' h rfl
      cases hb
      exact Or.inl hP
    · rw [List.concat_eq_append] at h hQ
      rw [← List.cons_append, ← List.append_assoc] at h
      obtain ⟨rfl, hc⟩ := List.append_inj' h rfl
      cases hc
      refine Or.inr ⟨⟨before, b, after, rfl, hP, ?_⟩, ?_⟩
      · exact fun d hd => hQ d (List.mem_append_left _ hd)
      · exact hQ a (List.mem_append_right _ List.mem_cons_self)
  · rintro (hP | ⟨⟨before, b, after, rfl, hP, hQ⟩, ha⟩)
    · exact ⟨as, a, [], rfl, hP, by simp⟩
    · refine ⟨before, b, after ++ [a], by simp, hP, fun d hd => ?_⟩
      rcases List.mem_append.mp hd with hd | hd
      · exact hQ d hd
      · rw [List.mem_singleton.mp hd]
        exact ha

/-- **What starts false and keeps the law of one more event is `Since`.** -/
theorem since_iff_of_step {S : List α → Prop} (h₀ : ¬ S [])
    (hstep : ∀ as a, S (as ++ [a]) ↔ P as a ∨ (S as ∧ Q a)) (as : List α) :
    S as ↔ Since P Q as := by
  induction as using List.reverseRecOn with
  | nil => exact iff_of_false h₀ not_since_nil
  | append_singleton as a ih => rw [hstep, since_concat, ih]

end History
