import HeyoCi.Lib.Words
import Mathlib.Data.List.Sort

/-!
# The masker

* `Resolved`: what a job gets from the secret store;
* `Masker.new`, `Masker.mask`: the values that are masked, longest first, and the masking;
* **`Masker.mask_settles`**: no value is left, and masking a second time changes nothing;
* `Resolved.Hides`: the values that masking is to keep out of a text;
* **`Resolved.not_infix_mask`**: it does.
-/

namespace HeyoCi

/-- Shorter values, in bytes, are not masked. -/
def minMaskLen : Nat := 4

def redacted : String := "***"

/-- What is masked, in the order in which it is. -/
structure Masker where
  values : List String
  deriving Repr, DecidableEq

namespace Masker

/-- `Vec::dedup`: equal neighbours are one. -/
def dedup : List String → List String
  | [] => []
  | v :: vs => match dedup vs with
    | [] => [v]
    | w :: ws => if v = w then w :: ws else v :: w :: ws

/-- Longest first; the sort is stable. -/
def new (values : List String) : Masker where
  values := dedup ((values.filter fun v => minMaskLen ≤ v.utf8ByteSize).insertionSort
    fun v w => w.utf8ByteSize ≤ v.utf8ByteSize)

def mask (m : Masker) (text : String) : String :=
  String.ofList (Words.replaceEach redacted.toList (m.values.map String.toList) text.toList)

theorem mem_dedup {v : String} {vs : List String} : v ∈ dedup vs ↔ v ∈ vs := by
  induction vs with
  | nil => exact Iff.rfl
  | cons w ws ih =>
    rw [dedup, List.mem_cons, ← ih]
    cases dedup ws with
    | nil => simp
    | cons x xs =>
      simp only
      split_ifs with hwx
      · rw [hwx, List.mem_cons]
        tauto
      · rw [List.mem_cons]

theorem mem_new {v : String} {values : List String} :
    v ∈ (new values).values ↔ v ∈ values ∧ minMaskLen ≤ v.utf8ByteSize := by
  rw [new, mem_dedup, List.mem_insertionSort, List.mem_filter, decide_eq_true_eq]

/-- **A masked value without a star is in no masked text.** -/
theorem not_infix_mask {m : Masker} {v : String} (hv : v ∈ m.values) (hne : v.toList ≠ [])
    (hstar : '*' ∉ v.toList) (text : String) : ¬ v.toList <:+: (m.mask text).toList := by
  rw [mask, String.toList_ofList]
  refine Words.not_infix_replaceEach (by decide) (List.mem_map_of_mem hv) ?_ hne _
  intro c hc hmem
  have : c = '*' := by simpa [redacted] using hmem
  exact hstar (this ▸ hc)

theorem ne_nil_of_minMaskLen {v : String} (h : minMaskLen ≤ v.utf8ByteSize) : v.toList ≠ [] := by
  intro hnil
  have hempty : v = "" := by rw [← String.ofList_toList (s := v), hnil]
  rw [hempty] at h
  exact absurd h (by decide)

/-- A text without the values is kept. -/
theorem mask_eq_self {m : Masker} {text : String}
    (h : ∀ v ∈ m.values, ¬ v.toList <:+: text.toList) : m.mask text = text := by
  have hpats : ∀ pat ∈ m.values.map String.toList, ¬ pat <:+: text.toList := by
    intro pat hp
    obtain ⟨v, hv, rfl⟩ := List.mem_map.mp hp
    exact h v hv
  rw [mask, Words.replaceEach_absent hpats, String.ofList_toList]

/-- **Values without a star are in no masked text, masking again changes nothing, and a text without
the values is kept.** -/
theorem mask_settles {values : List String} (hstar : ∀ v ∈ values, '*' ∉ v.toList)
    (text : String) :
    (∀ v ∈ values, minMaskLen ≤ v.utf8ByteSize →
      ¬ v.toList <:+: ((new values).mask text).toList) ∧
    (new values).mask ((new values).mask text) = (new values).mask text ∧
    ((∀ v ∈ values, minMaskLen ≤ v.utf8ByteSize → ¬ v.toList <:+: text.toList) →
      (new values).mask text = text) := by
  have hkept : ∀ t : String,
      (∀ v ∈ values, minMaskLen ≤ v.utf8ByteSize → ¬ v.toList <:+: t.toList) →
      (new values).mask t = t := by
    intro t ht
    refine mask_eq_self fun v hv => ?_
    obtain ⟨hmem, hlen⟩ := mem_new.mp hv
    exact ht v hmem hlen
  have hgone : ∀ v ∈ values, minMaskLen ≤ v.utf8ByteSize →
      ¬ v.toList <:+: ((new values).mask text).toList := by
    intro v hv hlen
    exact not_infix_mask (mem_new.mpr ⟨hv, hlen⟩) (ne_nil_of_minMaskLen hlen) (hstar v hv) text
  exact ⟨hgone, hkept _ hgone, hkept text⟩

/-- Two values, one the beginning of the other, in one text. -/
theorem two_values_masked :
    (∀ v ∈ ["hunter2", "hunter2!x"], '*' ∉ v.toList) ∧
    ((Masker.new ["hunter2", "hunter2!x"]).mask "a hunter2!x hunter2 hunter" =
      "a *** *** hunter") ∧
    ((Masker.new ["hunter2", "hunter2!x"]).mask
        ((Masker.new ["hunter2", "hunter2!x"]).mask "a hunter2!x hunter2 hunter") =
      (Masker.new ["hunter2", "hunter2!x"]).mask "a hunter2!x hunter2 hunter") := by
  have hstar : ∀ v ∈ ["hunter2", "hunter2!x"], '*' ∉ v.toList := by simp
  exact ⟨hstar, by decide, (mask_settles hstar _).2.1⟩

end Masker

/-- What a job gets from the secret store, by name. -/
structure Resolved where
  secrets : List (String × String)
  vars : List (String × String)
  deriving Repr, DecidableEq

namespace Resolved

/-- The masker of the set. `vars` are public. -/
def masker (r : Resolved) : Masker := .new (r.secrets.map (·.2))

/-- A secret of at least four bytes without a star. -/
def Hides (r : Resolved) (v : String) : Prop :=
  v ∈ r.secrets.map (·.2) ∧ minMaskLen ≤ v.utf8ByteSize ∧ '*' ∉ v.toList

instance (r : Resolved) (v : String) : Decidable (r.Hides v) :=
  inferInstanceAs (Decidable (_ ∧ _ ∧ _))

theorem Hides.ne_nil {r : Resolved} {v : String} (h : r.Hides v) : v.toList ≠ [] :=
  Masker.ne_nil_of_minMaskLen h.2.1

/-- **What is hidden is in no text that is masked.** -/
theorem not_infix_mask {r : Resolved} {v : String} (h : r.Hides v) (text : String) :
    ¬ v.toList <:+: (r.masker.mask text).toList :=
  Masker.not_infix_mask (Masker.mem_new.mpr ⟨h.1, h.2.1⟩) h.ne_nil h.2.2 text

end Resolved

end HeyoCi
