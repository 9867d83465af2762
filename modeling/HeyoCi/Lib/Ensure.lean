import Mathlib.Data.List.Basic

/-!
# Statements that ensure something

A statement that ensures something says nothing when what it ensures is there already. Files of such
statements can be run from their beginning however often, in whatever order with others.

* `Lawful`: each statement brings about what it ensures, does nothing when that is there, and takes
  nothing of the others away;
* `applyAll`: statements one after the other; **`Lawful.again`**: again, they change nothing;
* `Lawful.lists`: files of such statements are such statements;
* **`Lawful.next`**: a file of a sequence, where so many of them have been run.
-/

universe u v w

namespace Ensure

variable {σ : Type u} {α : Type v} {ε : Type w}

/-- Statements one after the other, up to the first error. -/
def applyAll (apply : α → σ → Except ε σ) : List α → σ → Except ε σ
  | [], s => .ok s
  | a :: as, s => (apply a s).bind (applyAll apply as)

/-- What each statement ensures is there behind it, makes it do nothing, and stays. -/
structure Lawful (apply : α → σ → Except ε σ) (Holds : α → σ → Prop) (ops : List α) : Prop where
  made : ∀ {a s s'}, a ∈ ops → apply a s = .ok s' → Holds a s'
  same : ∀ {a s}, a ∈ ops → Holds a s → apply a s = .ok s
  kept : ∀ {a b s s'}, a ∈ ops → b ∈ ops → Holds a s → apply b s = .ok s' → Holds a s'

variable {apply : α → σ → Except ε σ} {Holds : α → σ → Prop} {ops as bs : List α} {s s' : σ}

theorem applyAll_cons_ok {a : α} : applyAll apply (a :: as) s = .ok s' ↔
    ∃ t, apply a s = .ok t ∧ applyAll apply as t = .ok s' := by
  rw [applyAll]
  cases apply a s with
  | error e => exact ⟨nofun, fun ⟨_, h, _⟩ => by cases h⟩
  | ok t =>
    refine ⟨fun h => ⟨t, rfl, h⟩, ?_⟩
    rintro ⟨t', h, h'⟩
    cases h
    exact h'

theorem applyAll_append :
    applyAll apply (as ++ bs) s = (applyAll apply as s).bind (applyAll apply bs) := by
  induction as generalizing s with
  | nil => rfl
  | cons a as ih =>
    rw [List.cons_append, applyAll, applyAll]
    cases apply a s with
    | error e => rfl
    | ok t => exact ih

theorem applyAll_congr {apply' : α → σ → Except ε σ} (h : ∀ a ∈ as, ∀ s, apply a s = apply' a s) :
    applyAll apply as s = applyAll apply' as s := by
  induction as generalizing s with
  | nil => rfl
  | cons a as ih =>
    rw [applyAll, applyAll, h a List.mem_cons_self]
    congr 1
    funext t
    exact ih fun b hb => h b (List.mem_cons_of_mem a hb)

namespace Lawful

theorem kept_applyAll (h : Lawful apply Holds ops) {b : α} (hb : b ∈ ops) (has : as ⊆ ops)
    (hholds : Holds b s) (hs : applyAll apply as s = .ok s') : Holds b s' := by
  induction as generalizing s with
  | nil =>
    cases hs
    exact hholds
  | cons a as ih =>
    obtain ⟨t, ha, hrest⟩ := applyAll_cons_ok.mp hs
    exact ih (fun x hx => has (List.mem_cons_of_mem a hx))
      (h.kept hb (has List.mem_cons_self) hholds ha) hrest

/-- Behind statements all that they ensure is there. -/
theorem holds_applyAll (h : Lawful apply Holds ops) (has : as ⊆ ops)
    (hs : applyAll apply as s = .ok s') : ∀ a ∈ as, Holds a s' := by
  induction as generalizing s with
  | nil => exact fun _ ha => absurd ha List.not_mem_nil
  | cons a as ih =>
    obtain ⟨t, ha, hrest⟩ := applyAll_cons_ok.mp hs
    have hmem := has List.mem_cons_self
    have hsub : as ⊆ ops := fun x hx => has (List.mem_cons_of_mem a hx)
    intro x hx
    rcases List.mem_cons.mp hx with rfl | hx
    · exact h.kept_applyAll hmem hsub (h.made hmem ha) hrest
    · exact ih hsub hrest x hx

/-- **Where all that they ensure is there, statements change nothing.** -/
theorem again (h : Lawful apply Holds ops) (has : as ⊆ ops) (hholds : ∀ a ∈ as, Holds a s) :
    applyAll apply as s = .ok s := by
  induction as with
  | nil => rfl
  | cons a as ih =>
    refine applyAll_cons_ok.mpr ⟨s, h.same (has List.mem_cons_self) (hholds a List.mem_cons_self), ?_⟩
    exact ih (fun x hx => has (List.mem_cons_of_mem a hx)) fun x hx =>
      hholds x (List.mem_cons_of_mem a hx)

/-- **Files of statements that ensure something ensure what these do.** -/
theorem lists (h : Lawful apply Holds ops) {files : List (List α)} (hfiles : ∀ f ∈ files, f ⊆ ops) :
    Lawful (applyAll apply) (fun f s => ∀ a ∈ f, Holds a s) files where
  made hf hs := h.holds_applyAll (hfiles _ hf) hs
  same hf hholds := h.again (hfiles _ hf) hholds
  kept hf hg hholds hs a ha := h.kept_applyAll (hfiles _ hf ha) (hfiles _ hg) (hholds a ha) hs

/-- **Where the first `k` have been run**, the earlier ones do nothing and the next one goes on. -/
theorem next (h : Lawful apply Holds ops) {k j : ℕ} {s₀ : σ} {a : α}
    (hk : applyAll apply (ops.take k) s₀ = .ok s) (ha : ops[j]? = some a) :
    (j < k → apply a s = .ok s) ∧ (j = k → applyAll apply (ops.take (k + 1)) s₀ = apply a s) := by
  refine ⟨fun hj => ?_, ?_⟩
  · have hmem : a ∈ ops.take k := List.mem_of_getElem? ((List.getElem?_take_of_lt hj).trans ha)
    exact h.same (List.take_subset k ops hmem) (h.holds_applyAll (List.take_subset k ops) hk a hmem)
  · rintro rfl
    rw [List.take_add_one, ha, applyAll_append, hk]
    change (apply a s).bind (fun t => .ok t) = _
    cases apply a s <;> rfl

end Lawful

end Ensure
