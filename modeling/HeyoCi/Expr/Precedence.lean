import HeyoCi.Expr.Spelling

/-!
# `!` and comparisons

The parser takes `!a == b` as `!(a == b)`.

* `Ast.Operand`: paths, literals and calls;
* `Flips`: the two ways to read a negated comparison of two values agree; `flips_ne`,
  `flips_bool`, `flips_null`, `not_flips_number`: when they do;
* `value_not_cmp`, `value_cmp_not`: what the two readings mean;
* **`eval_negated_iff`**: without parentheses the text means what it means with `!` first, exactly
  for such values.
-/

namespace HeyoCi.Expr

variable {F : Type} {fl : Floats F} {ctx : Json.Obj} {a b : Ast F} {op : Op} {va vb : Json}

/-- A path, a literal or a call. -/
def Ast.Operand : Ast F → Prop
  | .path .. | .lit _ | .call .. => True
  | _ => False

theorem Ast.Operand.level_eq (h : a.Operand) : a.level = 4 := by
  cases a <;> first | rfl | exact absurd h id

theorem level_not (e : Ast F) : (Ast.not e).level = 2 := rfl

theorem level_cmp (op : Op) (a b : Ast F) : (Ast.cmp op a b).level = 3 := rfl

/-- Exactly one of two values and of the negation of the first and the second stand in a relation. -/
def Flips (fl : Floats F) (op : Op) (va vb : Json) : Prop :=
  op.holds fl (.bool (!truthy fl va)) vb ≠ op.holds fl va vb

theorem flips_ne : Flips fl .ne va vb ↔ Flips fl .eq va vb := by
  simp [Flips, Op.holds]

/-- Two booleans are equal in exactly one of the two ways. -/
theorem flips_bool (x y : Bool) : Flips fl .eq (.bool x) (.bool y) := by
  cases x <;> cases y <;> simp [Flips, Op.holds, looseEq, truthy]

/-- Before `== null` it matters where the negation is, if the value is not null. -/
theorem flips_null : Flips fl .eq va .null ↔ va = .null := by
  cases va <;> simp [Flips, Op.holds, looseEq]

/-- What is no number is in no order, negated or not. -/
theorem not_flips_number {rel : F → F → Bool} (hop : op.holds fl = ordered fl rel)
    (hvb : asNumber fl vb = none) : ¬ Flips fl op va vb := by
  have hfalse : ∀ v, ordered fl rel v vb = false := by
    intro v
    rw [ordered, hvb]
    cases asNumber fl v <;> rfl
  rw [Flips, hop, hfalse, hfalse]
  exact fun h => h rfl

/-- The negation of a comparison. -/
theorem value_not_cmp : (Ast.not (.cmp op a b)).value fl ctx = (a.value fl ctx).bind fun va =>
    (b.value fl ctx).map fun vb => .bool (!op.holds fl va vb) := by
  rw [Ast.value, Ast.value]
  cases a.value fl ctx with
  | error e => rfl
  | ok va => cases b.value fl ctx <;> rfl

/-- The comparison of a negation. -/
theorem value_cmp_not : (Ast.cmp op (.not a) b).value fl ctx = (a.value fl ctx).bind fun va =>
    (b.value fl ctx).map fun vb => .bool (op.holds fl (.bool (!truthy fl va)) vb) := by
  rw [Ast.value, Ast.value]
  cases a.value fl ctx <;> rfl

/-- Two readings agree where both operands have values that flip. -/
theorem bind_eq_iff {x y : Except ExprError Json} {f g : Json → Json → Bool} :
    (x.bind fun va => y.map fun vb => Json.bool (!f va vb)) =
      (x.bind fun va => y.map fun vb => .bool (g va vb)) ↔
    ∀ va vb, x = .ok va → y = .ok vb → g va vb ≠ f va vb := by
  cases x with
  | error e => exact iff_of_true rfl nofun
  | ok va =>
    cases y with
    | error e => exact iff_of_true rfl nofun
    | ok vb =>
      simp only [Except.bind, Except.map, Except.ok.injEq, Json.bool.injEq]
      constructor
      · rintro h _ _ rfl rfl hsame
        rw [hsame] at h
        simp at h
      · intro h
        exact (Bool.eq_not_of_ne (h va vb rfl rfl)).symm

/-- **`!a op b` means what `(!a) op b` means, exactly where an operand has no value or their values
flip.** -/
theorem eval_negated_iff (op : Op) (ha : a.Operand) (hb : b.Operand) (hra : a.Readable fl)
    (hrb : b.Readable fl) {plain grouped : List Char}
    (hplain : Spells fl (.not :: (a.bare fl ++ op.tok :: b.bare fl)) plain)
    (hgrouped : Spells fl (.lParen :: .not :: (a.bare fl ++ .rParen :: op.tok :: b.bare fl)) grouped) :
    eval fl ctx plain = eval fl ctx grouped ↔
      ∀ va vb, a.value fl ctx = .ok va → b.value fl ctx = .ok vb → Flips fl op va vb := by
  have hnot : eval fl ctx plain = (Ast.not (.cmp op a b)).value fl ctx := by
    refine eval_spells (e := .not (.cmp op a b)) ⟨hra, hrb⟩ ?_
    simpa [Ast.tokens, Ast.bare, within, level_not, level_cmp, ha.level_eq, hb.level_eq] using hplain
  have hcmp : eval fl ctx grouped = (Ast.cmp op (.not a) b).value fl ctx := by
    refine eval_spells (e := .cmp op (.not a) b) ⟨hra, hrb⟩ ?_
    simpa [Ast.tokens, Ast.bare, within, level_not, level_cmp, ha.level_eq, hb.level_eq] using hgrouped
  rw [hnot, hcmp, value_not_cmp, value_cmp_not]
  exact bind_eq_iff

theorem booleans_negated : eval Floats.absent [] " ! true == false".toList =
    eval Floats.absent [] " ( ! true ) == false".toList := by
  have htrue : Writes Floats.absent (.ident "true") "true".toList := .name (by decide)
  have hfalse : Writes Floats.absent (.ident "false") "false".toList := .name (by decide)
  have hplain : Spells Floats.absent [.not, .ident "true", .eqEq, .ident "false"] _ :=
    spells_words (.cons (.mark rfl) <| .cons htrue <| .cons (.mark rfl) <| .cons hfalse .nil)
  have hgrouped :
      Spells Floats.absent [.lParen, .not, .ident "true", .rParen, .eqEq, .ident "false"] _ :=
    spells_words (.cons (.mark rfl) <| .cons (.mark rfl) <| .cons htrue <| .cons (.mark rfl) <|
      .cons (.mark rfl) <| .cons hfalse .nil)
  refine (eval_negated_iff (a := .lit (.bool true)) (b := .lit (.bool false)) .eq trivial trivial
    trivial trivial hplain hgrouped).mpr ?_
  rintro _ _ ⟨⟩ ⟨⟩
  exact flips_bool true false

theorem strings_negated : eval Floats.absent [] "!'a' == 'b'".toList ≠
    eval Floats.absent [] "(!'a') == 'b'".toList := by decide +kernel

end HeyoCi.Expr
