import Mathlib.Data.List.Basic

/-!
# Subjects and filters of a message broker

A subject is a list of words between dots. In a filter the word `*` stands for any one word and a
final `>` for one or more.

* `Subjects.words`: the words of a subject or of a filter;
* `Subjects.takes`: whether a filter takes a subject;
* `takes_plain`, `takes_rest`: filters without wildcards, and with a final `>`.
-/

namespace Subjects

/-- The words of a subject or of a filter. -/
def words (s : List Char) : List (List Char) := s.splitOn '.'

/-- Whether a filter takes a subject, word by word. -/
def takes : List (List Char) → List (List Char) → Bool
  | [], [] => true
  | p :: ps, w :: ws => (p == ['>'] && ps.isEmpty) || ((p == ['*'] || p == w) && takes ps ws)
  | _, _ => false

/-- A word that stands for itself. -/
def Plain (w : List Char) : Prop := w ≠ ['*'] ∧ w ≠ ['>']

variable {ps ws : List (List Char)}

/-- The words a text was put together from. -/
theorem words_intercalate (h : ∀ w ∈ ws, '.' ∉ w) (hne : ws ≠ []) :
    words (['.'].intercalate ws) = ws := List.splitOn_intercalate '.' h hne

/-- A filter without wildcards takes one subject, itself. -/
theorem takes_plain (h : ∀ p ∈ ps, Plain p) : takes ps ws = true ↔ ps = ws := by
  induction ps generalizing ws with
  | nil => cases ws <;> simp [takes]
  | cons p ps ih =>
    obtain ⟨hstar, hrest⟩ := h p List.mem_cons_self
    cases ws with
    | nil => simp [takes]
    | cons w ws => simp [takes, hstar, hrest, ih fun q hq => h q (List.mem_cons_of_mem p hq)]

/-- A filter that ends in `>` takes the subjects with one word more, or several. -/
theorem takes_rest (h : ∀ p ∈ ps, Plain p) :
    takes (ps ++ [['>']]) ws = true ↔ ∃ w ws', ws = ps ++ w :: ws' := by
  induction ps generalizing ws with
  | nil =>
    cases ws with
    | nil => simp [takes]
    | cons w ws => simp [takes]
  | cons p ps ih =>
    obtain ⟨hstar, hrest⟩ := h p List.mem_cons_self
    cases ws with
    | nil => simp [takes]
    | cons w ws =>
      simp only [List.cons_append, takes, hstar, hrest, Bool.and_eq_true, Bool.or_eq_true,
        beq_iff_eq, false_and, false_or, ih fun q hq => h q (List.mem_cons_of_mem p hq),
        List.cons.injEq]
      constructor
      · rintro ⟨rfl, w', ws', rfl⟩
        exact ⟨w', ws', rfl, rfl⟩
      · rintro ⟨w', ws', rfl, rfl⟩
        exact ⟨rfl, w', ws', rfl⟩

end Subjects
