import HeyoCi.Expr.Tokens

/-!
# Whole numbers

* `Digits`, `numeral`: a run of digits, and its number; `digits_toString`, `numeral_toString`;
* `Floats.Lawful`: what is relied on of floats that stand for whole numbers;
* `Floats.whole`: floats that are whole numbers; `lawful_whole`.
-/

namespace HeyoCi.Expr

/-- The bound on the integers that a float stands for exactly. -/
def exactBound : Nat := 9007199254740992

/-- At least one digit, and nothing else. -/
def Digits (ds : List Char) : Prop := ds ≠ [] ∧ ∀ c ∈ ds, c.isDigit = true

instance (ds : List Char) : Decidable (Digits ds) :=
  @instDecidableAnd _ _ _ (List.decidableBAll _ ds)

def numeral (ds : List Char) : Nat := Nat.ofDigitChars 10 ds 0

theorem digits_toString (n : Nat) : Digits (toString n).toList := by
  have hlist : (toString n).toList = Nat.toDigits 10 n := Nat.toList_repr
  rw [hlist]
  exact ⟨Nat.toDigits_ne_nil, fun c hc => Nat.isDigit_of_mem_toDigits (by omega) (by omega) hc⟩

theorem numeral_toString (n : Nat) : numeral (toString n).toList = n := by
  have hlist : (toString n).toList = Nat.toDigits 10 n := Nat.toList_repr
  rw [numeral, hlist, Nat.ofDigitChars_ten_toDigits]

/-- Digits are read as their number, exactly below the bound and not as an integer from there on;
integers are written with their digits, and other floats not with digits alone. -/
structure Floats.Lawful {F : Type} (fl : Floats F) : Prop where
  parse_digits : ∀ ds, Digits ds → ∃ x, fl.parse (String.ofList ds) = some x ∧
    fl.integral x = if numeral ds < exactBound then some (numeral ds : Int) else none
  toText_integer : ∀ i : Int, fl.toText (.num i 0) = toString i
  toText_float : ∀ x m e, fl.integral x = none → fl.toNumber x = some (m, e) →
    ¬ Digits (fl.toText (.num m e)).toList

variable {F : Type} {fl : Floats F}

theorem Floats.Lawful.parse_toString (h : fl.Lawful) {n : Nat} (hn : n < exactBound) :
    ∃ x, fl.parse (toString n) = some x ∧ number fl x = .num n 0 := by
  obtain ⟨x, hparse, hint⟩ := h.parse_digits _ (digits_toString n)
  rw [numeral_toString, if_pos hn] at hint
  rw [String.ofList_toList] at hparse
  exact ⟨x, hparse, by rw [number, hint]⟩

/-- Floats that are whole numbers. One that is not below the bound is written with a point. -/
def Floats.whole : Floats Nat where
  parse s := if Digits s.toList then some (numeral s.toList) else none
  debug n := toString n ++ ".0"
  zero := 0
  one := 1
  eq a b := a = b
  lt a b := a < b
  le a b := a ≤ b
  integral n := if n < exactBound then some n else none
  toNumber n := some (10 * n, 1)
  ofNumber m e := if e = 0 ∧ 0 ≤ m then some m.toNat else none
  toText
    | .num m 0 => toString m
    | .num m _ => toString (m / 10) ++ ".0"
    | _ => ""
  ofText _ := none

theorem lawful_whole : Floats.whole.Lawful where
  parse_digits ds hds := by
    refine ⟨numeral ds, ?_, rfl⟩
    change (if Digits (String.ofList ds).toList then _ else none) = _
    rw [String.toList_ofList, if_pos hds]
  toText_integer i := rfl
  toText_float x m e _ hnum := by
    obtain ⟨rfl, rfl⟩ : (10 * x : Int) = m ∧ 1 = e := by
      simpa [Floats.whole] using hnum
    intro hdigits
    have hpoint : '.' ∈ (toString (10 * (x : Int) / 10) ++ ".0").toList := by
      rw [String.toList_append]
      exact List.mem_append_right _ (by decide)
    exact absurd (hdigits.2 '.' hpoint) (by decide)

end HeyoCi.Expr
