import HeyoCi.Expr.Parser

/-!
# Substitution into a text

* `findClose`: where an expression ends, strings passed over; `findClose_eq`;
* `Piece`, `pieces`: the characters and the expressions of a text; **`pieces_source`**: they make up
  the text;
* `render`, `substitute`: the text of a piece, and of all of them;
* `misses`, **`substitute_twice`**, **`substitute_twice_ne`**: when a substitution that comes after
  another one makes what it would have made alone.
-/

namespace HeyoCi.Expr

/-! ## The pieces of a text -/

/-- `find_close`: what is before the braces that close an expression and what is behind them, inside
a literal or outside of one. -/
def findClose : Option Char → List Char → Option (List Char × List Char)
  | _, [] => none
  | some quote, c :: cs =>
    if c = quote then match cs with
      | '\'' :: cs => if quote = '\''
          then (findClose (some quote) cs).map fun (body, rest) => (c :: '\'' :: body, rest)
          else (findClose none ('\'' :: cs)).map fun (body, rest) => (c :: body, rest)
      | cs => (findClose none cs).map fun (body, rest) => (c :: body, rest)
    else (findClose (some quote) cs).map fun (body, rest) => (c :: body, rest)
  | none, c :: cs =>
    if c = '\'' || c = '"' then (findClose (some c) cs).map fun (body, rest) => (c :: body, rest)
    else match c, cs with
      | '}', '}' :: rest => some ([], rest)
      | c, cs => (findClose none cs).map fun (body, rest) => (c :: body, rest)

def opening : List Char := ['$', '{', '{']

def closing : List Char := ['}', '}']

/-- A character of a text, or an expression in it. -/
inductive Piece where
  | char (c : Char)
  | expr (body : List Char)
  deriving Repr, DecidableEq

/-- How a piece is written. -/
def Piece.source : Piece → List Char
  | char c => [c]
  | expr body => opening ++ body ++ closing

/-- The pieces of a text whose first `skip` characters belong to an expression that was read. -/
def piecesFrom : Nat → List Char → List Piece
  | _, [] => []
  | skip + 1, _ :: cs => piecesFrom skip cs
  | 0, c :: cs =>
    if opening.isPrefixOf (c :: cs) then match findClose none (cs.drop 2) with
      -- nothing closes it: the rest is text
      | none => (c :: cs).map .char
      | some (body, _) => .expr body :: piecesFrom (body.length + 4) cs
    else .char c :: piecesFrom 0 cs

def pieces (text : List Char) : List Piece := piecesFrom 0 text

theorem findClose_eq {quote : Option Char} {cs body rest : List Char}
    (h : findClose quote cs = some (body, rest)) : cs = body ++ (closing ++ rest) := by
  fun_induction findClose quote cs generalizing body rest with
  | case1 => cases h
  | case2 cs ih =>
    obtain ⟨⟨b, r⟩, hb, heq⟩ := Option.map_eq_some_iff.mp h
    cases heq
    rw [ih hb]
    rfl
  | case7 rest =>
    cases h
    rfl
  | case3 c cs _ ih | case4 c cs _ ih | case5 q c cs _ ih | case6 c cs _ ih | case8 c cs _ _ ih =>
    obtain ⟨⟨b, r⟩, hb, heq⟩ := Option.map_eq_some_iff.mp h
    cases heq
    rw [ih hb]
    rfl

/-- What is left of a text is made up of its pieces. -/
theorem piecesFrom_source (skip : Nat) (cs : List Char) :
    (piecesFrom skip cs).flatMap Piece.source = cs.drop skip := by
  fun_induction piecesFrom skip cs with
  | case1 skip => rw [List.drop_nil]; rfl
  | case2 skip c cs ih => rw [ih, List.drop_succ_cons]
  | case3 c cs hopen hclose =>
    rw [List.flatMap_map]
    exact List.flatMap_singleton' (c :: cs)
  | case4 c cs hopen body rest hclose ih =>
    obtain ⟨tail, htail⟩ := List.isPrefixOf_iff_prefix.mp hopen
    obtain ⟨rfl, rfl⟩ : '$' = c ∧ '{' :: '{' :: tail = cs := List.cons.inj htail
    have hbody : tail = body ++ (closing ++ rest) := findClose_eq hclose
    rw [List.flatMap_cons, ih, hbody, Piece.source]
    simp [opening, closing, List.drop_append]
  | case5 c cs hopen ih =>
    rw [List.flatMap_cons, ih]
    rfl

/-- **The pieces of a text make up the text.** -/
theorem pieces_source (text : List Char) : (pieces text).flatMap Piece.source = text :=
  piecesFrom_source 0 text

/-- A text without an opening is text. -/
theorem pieces_of_closed {text : List Char} (h : ¬ opening <:+: text) :
    pieces text = text.map .char := by
  unfold pieces
  induction text with
  | nil => rfl
  | cons c cs ih =>
    have hhead : ¬ opening.isPrefixOf (c :: cs) = true := fun hpre =>
      h (List.isPrefixOf_iff_prefix.mp hpre).isInfix
    have htail : ¬ opening <:+: cs := fun hin => h (List.infix_cons hin)
    simp only [piecesFrom, hhead, if_false, Bool.false_eq_true, ih htail, List.map_cons]

/-! ## Their values -/

section

variable {F : Type} (fl : Floats F) (ctx : Json.Obj)

/-- The text of a piece. An expression without a value stays as it is written. -/
def render : Piece → List Char
  | .char c => [c]
  | .expr body => match eval fl ctx body with
    | .ok v => (toDisplay fl v).toList
    | .error _ => (Piece.expr body).source

/-- `Context::substitute`, on the characters of the text. -/
def substituteChars (input : List Char) : List Char := (pieces input).flatMap (render fl ctx)

/-- `Context::substitute`. -/
def substitute (input : String) : String := String.ofList (substituteChars fl ctx input.toList)

end

/-! ## Substitution in two contexts -/

section Twice

variable {F : Type} (fl : Floats F) (early late : Json.Obj)

/-- The expressions of a text that come out differently in two contexts. -/
def shifted (input : List Char) : List Piece :=
  (pieces input).filter fun p => render fl early p ≠ render fl late p

/-- The expressions of a text that do not come out as they are written. -/
def live (input : List Char) : List Piece :=
  (pieces input).filter fun p => render fl late p ≠ p.source

/-- Where an early substitution gets in the way of a late one: the expressions it gives another text,
and those that are in the text it leaves. -/
def misses (input : List Char) : List Piece :=
  shifted fl early late input ++ live fl late (substituteChars fl early input)

variable {fl early late} {input : List Char}

theorem substituteChars_of_live (h : live fl late input = []) :
    substituteChars fl late input = input :=
  (Words.flatMap_congr_of_filter h).trans (pieces_source input)

theorem live_of_closed (h : ¬ opening <:+: input) : live fl late input = [] := by
  unfold live
  rw [pieces_of_closed h, List.filter_eq_nil_iff]
  intro p hp
  obtain ⟨c, -, rfl⟩ := List.mem_map.mp hp
  simp [render, Piece.source]

/-- **Without a miss two substitutions are the late one.** -/
theorem substitute_twice (h : misses fl early late input = []) :
    substituteChars fl late (substituteChars fl early input) = substituteChars fl late input := by
  obtain ⟨hshift, hlive⟩ := List.append_eq_nil_iff.mp h
  rw [substituteChars_of_live hlive]
  exact Words.flatMap_congr_of_filter hshift

/-- **A single miss makes them differ.** -/
theorem substitute_twice_ne (h : (misses fl early late input).length = 1) :
    substituteChars fl late (substituteChars fl early input) ≠ substituteChars fl late input := by
  obtain ⟨p, hp⟩ := List.length_eq_one_iff.mp h
  rcases List.append_eq_singleton_iff.mp hp with ⟨hshift, hlive⟩ | ⟨hshift, hlive⟩
  · have hleft : substituteChars fl early input = substituteChars fl late input :=
      Words.flatMap_congr_of_filter hshift
    rw [← hleft]
    exact fun heq => Words.flatMap_ne_of_filter hlive (heq.trans (pieces_source _).symm)
  · rw [substituteChars_of_live hlive]
    exact Words.flatMap_ne_of_filter hshift

end Twice

end HeyoCi.Expr
