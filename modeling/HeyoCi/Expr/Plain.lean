import HeyoCi.Expr.Spelling

/-!
# Expressions with a value

* `functions`: the functions that there are; `call_ok`;
* `Ast.Plain`: trees of keywords, ASCII strings, whole numbers, paths and calls of these functions;
* `Ast.Plain.readable`, `Ast.Plain.value_ok`: they are read, and they have a value;
* **`eval_plain`**: their texts evaluate to it.
-/

namespace HeyoCi.Expr

variable {F : Type} {fl : Floats F} {text : List Char}

/-- The functions that `Parser::call` knows. -/
def functions : List String :=
  ["contains", "startsWith", "endsWith", "format", "join", "toJSON", "fromJSON", "changed", "success",
    "failure", "cancelled", "always"]

theorem call_ok {name : String} (h : name ∈ functions) (ctx : Json.Obj) (args : List Json) :
    ∃ v, call fl ctx name args = .ok v := by
  simp only [functions, List.mem_cons, List.not_mem_nil, or_false] at h
  rcases h with rfl | rfl | rfl | rfl | rfl | rfl | rfl | rfl | rfl | rfl | rfl | rfl <;>
    exact ⟨_, rfl⟩

/-- Literals are keywords, ASCII strings and whole numbers below the bound. -/
def Lit.Plain : Lit F → Prop
  | str s => Ascii s.toList
  | nat n => n < exactBound
  | num _ => False
  | _ => True

mutual

/-- Paths go by names from a scope that is no keyword, literals are plain, and calls are of functions
that there are. -/
def Ast.Plain : Ast F → Prop
  | .or left right | .and left right | .cmp _ left right => left.Plain ∧ right.Plain
  | .not e | .paren e => e.Plain
  | .path scope segs => scope ∉ keywords ∧ ∀ seg ∈ segs, ∃ s, seg = .name s
  | .lit l => l.Plain
  | .call name args => name ∈ functions ∧ Ast.AllPlain args

def Ast.AllPlain : List (Ast F) → Prop
  | [] => True
  | e :: es => e.Plain ∧ Ast.AllPlain es

end

theorem Lit.Plain.readable (hfl : fl.Lawful) {l : Lit F} (h : l.Plain) : l.Readable fl := by
  cases l with
  | nat n => exact hfl.parse_toString h
  | null | bool | str | num => trivial

mutual

theorem Ast.Plain.readable (hfl : fl.Lawful) : {e : Ast F} → e.Plain → e.Readable fl
  | .or .., h | .and .., h | .cmp .., h => ⟨h.1.readable hfl, h.2.readable hfl⟩
  | .not e, h | .paren e, h => Ast.Plain.readable hfl (e := e) h
  | .path .., h => h.1
  | .lit _, h => Lit.Plain.readable hfl h
  | .call .., h => Ast.AllPlain.readable hfl h.2

theorem Ast.AllPlain.readable (hfl : fl.Lawful) :
    {es : List (Ast F)} → Ast.AllPlain es → Ast.AllReadable fl es
  | [], _ => trivial
  | _ :: _, h => ⟨h.1.readable hfl, Ast.AllPlain.readable hfl h.2⟩

end

mutual

theorem Ast.Plain.value_ok (ctx : Json.Obj) : {e : Ast F} → e.Plain → ∃ v, e.value fl ctx = .ok v
  | .or .., h | .and .., h | .cmp .., h => by
    obtain ⟨a, ha⟩ := h.1.value_ok ctx
    obtain ⟨b, hb⟩ := h.2.value_ok ctx
    rw [Ast.value, ha, hb]
    exact ⟨_, rfl⟩
  | .not e, h => by
    obtain ⟨v, hv⟩ : ∃ v, e.value fl ctx = .ok v := Ast.Plain.value_ok ctx h
    rw [Ast.value, hv]
    exact ⟨_, rfl⟩
  | .paren e, h => by
    obtain ⟨v, hv⟩ : ∃ v, e.value fl ctx = .ok v := Ast.Plain.value_ok ctx h
    exact ⟨v, by rw [Ast.value, hv]⟩
  | .path .., _ => ⟨_, by rw [Ast.value]⟩
  | .lit _, _ => ⟨_, by rw [Ast.value]⟩
  | .call .., h => by
    obtain ⟨args, hargs⟩ := Ast.AllPlain.values_ok ctx h.2
    rw [Ast.value, hargs]
    exact call_ok h.1 ctx args

theorem Ast.AllPlain.values_ok (ctx : Json.Obj) :
    {es : List (Ast F)} → Ast.AllPlain es → ∃ vs, Ast.values fl ctx es = .ok vs
  | [], _ => ⟨[], by rw [Ast.values]⟩
  | _ :: _, h => by
    obtain ⟨v, hv⟩ := h.1.value_ok ctx
    obtain ⟨vs, hvs⟩ := Ast.AllPlain.values_ok ctx h.2
    rw [Ast.values, hv, hvs]
    exact ⟨_, rfl⟩

end

/-- **The text of a plain tree evaluates to its value, which there is in every context.** -/
theorem eval_plain (hfl : fl.Lawful) (ctx : Json.Obj) {e : Ast F} (he : e.Plain)
    (h : Spells fl (e.tokens fl 0) text) : ∃ v, e.value fl ctx = .ok v ∧ eval fl ctx text = .ok v := by
  obtain ⟨v, hv⟩ := he.value_ok ctx
  exact ⟨v, hv, by rw [eval_spells (he.readable hfl) h, hv]⟩

/-- `!ci.branch == 'it''s' || 7`. -/
private def sample : Ast Nat :=
  .or (.not (.cmp .eq (.path "ci" [.name "branch"]) (.lit (.str "it's")))) (.lit (.nat 7))

private def sampleTexts : List (List Char × List Char) :=
  [(" ", "!"), (" ", "ci"), (" ", "."), (" ", "branch"), ("\t", "=="), (" ", "'it''s'"), (" ", "||"),
    (" \n", "7")].map fun p => (p.1.toList, p.2.toList)

theorem sample_evaluates : eval Floats.whole [("ci", .obj [("branch", .str "it's")])]
    (sampleTexts.flatMap fun p => p.1 ++ p.2) = .ok (.num 7 0) := by
  have hplain : sample.Plain := by
    refine ⟨⟨⟨by decide, ?_⟩, ?_⟩, ?_⟩
    · rintro seg (_ | ⟨_, ⟨⟩⟩)
      exact ⟨"branch", rfl⟩
    · exact (by decide : Ascii "it's".toList)
    · change 7 < exactBound
      decide
  have hspells : Spells Floats.whole (sample.tokens Floats.whole 0)
      (sampleTexts.flatMap fun p => p.1 ++ p.2) := by
    refine spells_spaced ?_ (by decide)
    refine .cons (.mark rfl) <| .cons (.name (by decide)) <|
      .cons (.mark rfl) <| .cons (.name (by decide)) <|
      .cons (.mark rfl) <| .cons (.single "it's".toList) <| .cons (.mark rfl) <|
      .cons (.num ⟨⟨_, _, rfl, rfl⟩, rfl⟩ rfl) .nil
  obtain ⟨v, hv, heval⟩ := eval_plain lawful_whole _ hplain hspells
  rw [heval, ← hv]
  rfl

end HeyoCi.Expr
