import HeyoCi.Expr.Substitute
import HeyoCi.Steps.Run

/-!
# Conditions

* `ExprError.display`: what an error says;
* `evalCondition`: the value of an `if:`; `exprs`: the expressions as the executor takes them;
* `evalCondition_call`: a condition that is a call without arguments, such as `always()` and
  `failure()` (`evalCondition_always`, `evalCondition_failure`).
-/

namespace HeyoCi.Expr

/-- A character as `{:?}` prints it. -/
def debugChar (c : Char) : String :=
  String.ofList (['\''] ++ (if c = '\'' then ['\\', '\''] else if c = '"' then [c]
    else Text.escapeDebug c) ++ ['\''])

/-- `Display` of an error. -/
def ExprError.display : ExprError → String
  | .unexpectedChar c => "unexpected character " ++ debugChar c ++ " in an expression"
  | .unterminatedString => "a string literal was never closed"
  | .badNumber s => Text.debugStr s ++ " is not a number"
  | .unclosedParen => "a `(` was never closed"
  | .trailingDot p => Text.debugStr p ++ " ends with a `.` and no property"
  | .unexpected t => "unexpected " ++ t ++ " in an expression"
  | .trailing t => "unexpected " ++ t ++ " after the end of an expression"
  | .unknownFunction n => "no such function " ++ n ++ "(); available: contains, startsWith, " ++
      "endsWith, format, join, toJSON, fromJSON, success, failure, cancelled, always"

section

variable {F : Type} (fl : Floats F) (ctx : Json.Obj)

/-- The expression of a condition: the braces around it may be left out. -/
def unbraced (condition : List Char) : List Char :=
  if opening.isPrefixOf condition then
    let rest := condition.drop opening.length
    if closing.isSuffixOf rest then rest.take (rest.length - closing.length) else rest
  else condition

/-- `Context::eval_condition`. An empty one holds. -/
def evalCondition (condition : String) : Except ExprError Bool :=
  let condition := (Text.trim condition).toList
  if condition.isEmpty then .ok true
  else (eval fl ctx (unbraced condition)).map (truthy fl)

/-- The expressions of the executor. -/
def exprs : Exprs where
  evalCondition ctx condition := (evalCondition fl ctx condition).mapError ExprError.display
  substitute := substitute fl

/-! ## The status functions -/

variable {fl ctx}

open Descent

/-- An operand with nothing behind it is a chain of its own. -/
theorem chain_of_whole {isOp : Tok F → Bool} {operand : Parse F Json} {join : Json → Json → Json}
    {ts : List (Tok F)} {r : Except ExprError Json} (h : operand ts = r.map (·, [])) :
    chain isOp operand join ts = r.map (·, []) := by
  simp only [chain, sepBy, fix, fixAt, sepByBody, andThen, h]
  cases r <;> rfl

/-- A call without arguments, on its own. -/
theorem parseOr_call (name : String) :
    parseOr fl ctx [.ident name, .lParen, .rParen] = (call fl ctx name []).map (·, []) := by
  have hatom : parseAtom fl ctx (parseOr fl ctx) [.ident name, .lParen, .rParen] =
      (call fl ctx name []).map (·, []) := rfl
  have hprimary : parsePrimary fl ctx (parseOr fl ctx) [.ident name, .lParen, .rParen] =
      (call fl ctx name []).map (·, []) := by
    unfold parsePrimary andThen
    rw [hatom]
    cases call fl ctx name [] <;> rfl
  have hcmp : parseNot fl ctx (parseOr fl ctx) [.ident name, .lParen, .rParen] =
      (call fl ctx name []).map (·, []) := by
    unfold parseNot parseCmp andThen
    rw [hprimary]
    cases call fl ctx name [] <;> rfl
  rw [parseOr_eq]
  exact chain_of_whole (chain_of_whole hcmp)

/-- The tokens of a call without arguments. -/
theorem tokenize_call {c : Char} {cs : List Char} (hname : ∀ d ∈ c :: cs, isIdentChar d = true)
    (hc : c.isDigit = false) : tokenize fl (c :: cs ++ ['(', ')']) =
      .ok [.ident (String.ofList (c :: cs)), .lParen, .rParen] := by
  have hident : identifier (c :: (cs ++ ['(', ')'])) = (c :: cs, ['(', ')']) := by
    unfold identifier
    rw [List.span_eq_takeWhile_dropWhile, ← List.cons_append,
      List.takeWhile_append_of_pos hname, List.dropWhile_append_of_pos hname]
    simp [isIdentChar]
  have hfirst : isIdentChar c = true := hname c List.mem_cons_self
  have hnext : nextTok fl c (cs ++ ['(', ')']) =
      .ok (some (.ident (String.ofList (c :: cs))), ['(', ')']) := by
    unfold nextTok
    split_ifs with hspace
    · simp only [isAsciiWhitespace, Bool.or_eq_true, decide_eq_true_eq] at hspace
      rcases hspace with (((rfl | rfl) | rfl) | rfl) | rfl <;> exact absurd hfirst (by decide)
    · split
      all_goals try exact absurd hfirst (by decide)
      rw [if_neg, if_neg (by simp [hc]), if_pos hfirst, hident]
      rintro hquote
      simp only [Bool.or_eq_true, decide_eq_true_eq] at hquote
      rcases hquote with rfl | rfl <;> exact absurd hfirst (by decide)
  rw [List.cons_append, tokenize_cons, hnext]
  rfl

/-- A condition that is a call without arguments. -/
theorem evalCondition_call {condition : String} (c : Char) (cs : List Char)
    (hcond : (Text.trim condition).toList = c :: cs ++ ['(', ')'])
    (hname : ∀ d ∈ c :: cs, isIdentChar d = true) (hc : c.isDigit = false) :
    evalCondition fl ctx condition =
      (call fl ctx (String.ofList (c :: cs)) []).map (truthy fl) := by
  have hbraces : unbraced (c :: cs ++ ['(', ')']) = c :: cs ++ ['(', ')'] := by
    refine if_neg fun hopen => ?_
    obtain ⟨tail, htail⟩ := List.isPrefixOf_iff_prefix.mp hopen
    obtain ⟨rfl, -⟩ : '$' = c ∧ _ := List.cons.inj htail
    exact absurd (hname _ List.mem_cons_self) (by decide)
  unfold evalCondition
  simp only
  rw [hcond, hbraces, if_neg (by simp), eval, tokenize_call hname hc, Except.bind, parseOr_call]
  cases call fl ctx (String.ofList (c :: cs)) [] <;> rfl

theorem evalCondition_always : evalCondition fl ctx "always()" = .ok true :=
  evalCondition_call 'a' "lways".toList (by decide) (List.all_eq_true.mp (by decide)) rfl

theorem evalCondition_failure :
    evalCondition fl ctx "failure()" = .ok (decide (status ctx = "failure")) :=
  evalCondition_call 'f' "ailure".toList (by decide) (List.all_eq_true.mp (by decide)) rfl

end

end HeyoCi.Expr
