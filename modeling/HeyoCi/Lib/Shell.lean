import Mathlib.Data.List.Basic

/-!
# What commands write

* `Stream`, `text`, `on`: writes to the two streams of a process, in their order, and what is read
  of them when the streams are one, and when they are two;
* **`countP_text`**: a letter that is written is in the one text, and in one of the two; `filter_text`;
* `Done`: what a command did; `Done.seq`, `Done.and`: `;` and `&&`.
-/

universe u

namespace Shell

inductive Stream where
  | out
  | err
  deriving Repr, DecidableEq

/-- Pieces of text, each on a stream, in the order in which they are written. -/
abbrev Writes (α : Type u) := List (Stream × List α)

variable {α : Type u}

/-- What is read where both streams are one. -/
def text (ws : Writes α) : List α := ws.flatMap (·.2)

/-- What is read of one stream. -/
def on (s : Stream) (ws : Writes α) : List α := (ws.filter (·.1 = s)).flatMap (·.2)

theorem text_append (ws ws' : Writes α) : text (ws ++ ws') = text ws ++ text ws' :=
  List.flatMap_append

theorem on_append (s : Stream) (ws ws' : Writes α) : on s (ws ++ ws') = on s ws ++ on s ws' := by
  rw [on, List.filter_append, List.flatMap_append]
  rfl

/-- **What is written is on one of the two streams.** -/
theorem countP_text (p : α → Bool) (ws : Writes α) :
    (text ws).countP p = (on .out ws).countP p + (on .err ws).countP p := by
  induction ws with
  | nil => rfl
  | cons w ws ih =>
    obtain ⟨s, piece⟩ := w
    have htext : text ((s, piece) :: ws) = piece ++ text ws := rfl
    rw [htext, List.countP_append, ih]
    cases s
    · have hout : on .out ((.out, piece) :: ws) = piece ++ on .out ws := rfl
      have herr : on .err ((.out, piece) :: ws) = on .err ws := rfl
      rw [hout, herr, List.countP_append]
      omega
    · have hout : on .out ((.err, piece) :: ws) = on .out ws := rfl
      have herr : on .err ((.err, piece) :: ws) = piece ++ on .err ws := rfl
      rw [hout, herr, List.countP_append]
      omega

/-- What counts is on the first stream, where nothing that counts is on the second. -/
theorem filter_text {p : α → Bool} {ws : Writes α} (h : (on .err ws).filter p = []) :
    (text ws).filter p = (on .out ws).filter p := by
  induction ws with
  | nil => rfl
  | cons w ws ih =>
    obtain ⟨s, piece⟩ := w
    have htext : text ((s, piece) :: ws) = piece ++ text ws := rfl
    rw [htext, List.filter_append]
    cases s
    · have hout : on .out ((.out, piece) :: ws) = piece ++ on .out ws := rfl
      have herr : on .err ((.out, piece) :: ws) = on .err ws := rfl
      rw [herr] at h
      rw [hout, List.filter_append, ih h]
    · have hout : on .out ((.err, piece) :: ws) = on .out ws := rfl
      have herr : on .err ((.err, piece) :: ws) = piece ++ on .err ws := rfl
      rw [herr, List.filter_append, List.append_eq_nil_iff] at h
      rw [hout, h.1, ih h.2, List.nil_append]

/-! ## Commands -/

/-- What a command wrote, and its exit status. -/
structure Done (α : Type u) where
  writes : Writes α
  status : Nat

namespace Done

/-- `a; b`. -/
def seq (a b : Done α) : Done α := ⟨a.writes ++ b.writes, b.status⟩

def succeeded (a : Done α) : Bool := a.status = 0

/-- `a && b`. -/
def and (a b : Done α) : Done α := if a.succeeded then a.seq b else a

end Done

end Shell
