import HeyoCi.Expr.Values
import HeyoCi.Lib.Descent

/-!
# The tokens of an expression

The source goes by bytes: a character beyond ASCII is none of its tokens, and in a literal its bytes
become characters of their own.

* `Tok`: the tokens;
* `quoted`, `digits`, `identifier`: the tokens of more than two characters;
* `nextTok`, `tokenize`: the token at a place, and the tokens of a text;
* **`tokenize_cons`**: the tokens are those of the first place and of what is behind it.
-/

namespace HeyoCi.Expr

inductive Tok (F : Type) where
  | ident (name : String)
  | str (s : String)
  | num (n : F)
  | dot
  | lParen
  | rParen
  | comma
  | eqEq
  | notEq
  | gt
  | ge
  | lt
  | le
  | and
  | or
  | not

section

variable {F : Type} (fl : Floats F)

/-- `{:?}` of a token. -/
def Tok.debug : Tok F → String
  | ident name => "Ident(" ++ Text.debugStr name ++ ")"
  | str s => "Str(" ++ Text.debugStr s ++ ")"
  | num n => "Num(" ++ fl.debug n ++ ")"
  | dot => "Dot"
  | lParen => "LParen"
  | rParen => "RParen"
  | comma => "Comma"
  | eqEq => "EqEq"
  | notEq => "NotEq"
  | gt => "Gt"
  | ge => "Ge"
  | lt => "Lt"
  | le => "Le"
  | and => "And"
  | or => "Or"
  | not => "Not"

/-- The bytes of a character, each as a character. -/
def bytesAsChars (c : Char) : List Char := (String.utf8EncodeChar c).map fun b => Char.ofNat b.toNat

def isAsciiWhitespace (c : Char) : Bool :=
  c = ' ' || c = '\t' || c = '\n' || c = '\x0c' || c = '\x0d'

def isIdentChar (c : Char) : Bool := c.isAlphanum || c = '_' || c = '-' || c = '*'

/-- The rest of a literal, behind the quote that opens it. -/
def quoted (quote : Char) : List Char → Except ExprError (List Char × List Char)
  | [] => .error .unterminatedString
  | c :: cs => if c = quote then match cs with
      -- two single quotes inside a single-quoted literal are one
      | '\'' :: cs => if quote = '\''
          then (quoted quote cs).map fun (lit, rest) => ('\'' :: lit, rest)
          else .ok ([], '\'' :: cs)
      | cs => .ok ([], cs)
    else (quoted quote cs).map fun (lit, rest) => (bytesAsChars c ++ lit, rest)

/-- The longest run of digits, with points that a digit follows. -/
def digits : List Char → List Char × List Char
  | [] => ([], [])
  | c :: cs => if c.isDigit || (c = '.' && (cs.head?.map Char.isDigit).getD false)
      then (c :: (digits cs).1, (digits cs).2) else ([], c :: cs)

/-- The longest run of the characters of identifiers. -/
def identifier (cs : List Char) : List Char × List Char := cs.span isIdentChar

/-- The token that begins with a character, and what is behind it. White space is none. -/
def nextTok (c : Char) (cs : List Char) : Except ExprError (Option (Tok F) × List Char) :=
  if isAsciiWhitespace c then .ok (none, cs)
  else match c, cs with
  | '.', cs => .ok (some .dot, cs)
  | '(', cs => .ok (some .lParen, cs)
  | ')', cs => .ok (some .rParen, cs)
  | ',', cs => .ok (some .comma, cs)
  | '=', '=' :: cs => .ok (some .eqEq, cs)
  | '!', '=' :: cs => .ok (some .notEq, cs)
  | '!', cs => .ok (some .not, cs)
  | '>', '=' :: cs => .ok (some .ge, cs)
  | '>', cs => .ok (some .gt, cs)
  | '<', '=' :: cs => .ok (some .le, cs)
  | '<', cs => .ok (some .lt, cs)
  | '&', '&' :: cs => .ok (some .and, cs)
  | '|', '|' :: cs => .ok (some .or, cs)
  | c, cs =>
    if c = '\'' || c = '"' then
      (quoted c cs).map fun (lit, rest) => (some (.str (String.ofList lit)), rest)
    else if c.isDigit then
      let text := String.ofList (digits (c :: cs)).1
      match fl.parse text with
      | some n => .ok (some (.num n), (digits (c :: cs)).2)
      | none => .error (.badNumber text)
    else if isIdentChar c then
      .ok (some (.ident (String.ofList (identifier (c :: cs)).1)), (identifier (c :: cs)).2)
    else .error (.unexpectedChar ((bytesAsChars c).headD c))

/-- `tokenize`. -/
def tokenize (s : List Char) : Except ExprError (List (Tok F)) :=
  (Descent.many (nextTok fl) s).map List.reduceOption

end

/-! ## What is behind a token -/

theorem quoted_ne {quote c : Char} {cs : List Char} (hc : c ≠ quote) : quoted quote (c :: cs) =
    (quoted quote cs).map fun (lit, rest) => (bytesAsChars c ++ lit, rest) := by
  rw [quoted.eq_def]
  simp only [if_neg hc]

/-- A quote that is not doubled ends its literal. -/
theorem quoted_shut {quote : Char} {rest : List Char} (h : quote = '\'' → rest.head? ≠ some '\'') :
    quoted quote (quote :: rest) = .ok ([], rest) := by
  rw [quoted.eq_def]
  simp only [if_true]
  split
  · rw [if_neg fun hquote => h hquote rfl]
  · rfl

theorem quoted_suffix {quote : Char} {cs : List Char} {r : List Char × List Char}
    (h : quoted quote cs = .ok r) : r.2 <:+ cs := by
  fun_induction quoted quote cs generalizing r with
  | case1 => cases h
  | case2 cs hq ih =>
    obtain ⟨⟨lit, rest⟩, hr, rfl⟩ := Descent.map_ok.mp h
    have hrest : rest <:+ cs := ih hr
    exact (hrest.trans (List.suffix_cons _ _)).trans (List.suffix_cons _ _)
  | case3 cs hq =>
    cases h
    exact List.suffix_cons _ _
  | case4 cs hq =>
    cases h
    exact List.suffix_cons _ _
  | case5 c cs hc ih =>
    obtain ⟨⟨lit, rest⟩, hr, rfl⟩ := Descent.map_ok.mp h
    have hrest : rest <:+ cs := ih hr
    exact hrest.trans (List.suffix_cons _ _)

theorem digits_suffix (cs : List Char) : (digits cs).2 <:+ cs := by
  induction cs with
  | nil => exact List.suffix_rfl
  | cons c cs ih =>
    unfold digits
    split_ifs
    · exact ih.trans (List.suffix_cons c cs)
    · exact List.suffix_rfl

theorem digits_cons {c : Char} {cs : List Char} (hc : c.isDigit = true) :
    digits (c :: cs) = (c :: (digits cs).1, (digits cs).2) := by
  simp [digits, hc]

theorem identifier_cons {c : Char} {cs : List Char} (hc : isIdentChar c = true) :
    identifier (c :: cs) = (c :: (identifier cs).1, (identifier cs).2) := by
  simp [identifier, List.span_eq_takeWhile_dropWhile, hc]

theorem identifier_suffix (cs : List Char) : (identifier cs).2 <:+ cs := by
  simp [identifier, List.span_eq_takeWhile_dropWhile, List.dropWhile_suffix]

variable {F : Type} {fl : Floats F}

/-- A token takes at least its first character. -/
theorem keeps_nextTok (c : Char) : Descent.Keeps (nextTok fl c) := by
  intro cs t rest h
  unfold nextTok at h
  split_ifs at h
  · cases h
    exact List.suffix_rfl
  split at h
  all_goals try (cases h; first | exact List.suffix_rfl | exact List.suffix_cons _ _)
  split_ifs at h with hq hd hi
  · obtain ⟨r, hr, heq⟩ := Descent.map_ok.mp h
    cases heq
    exact quoted_suffix hr
  · simp only at h
    split at h
    · cases h
      rw [digits_cons hd]
      exact digits_suffix cs
    · cases h
  · cases h
    rw [identifier_cons hi]
    exact identifier_suffix cs

/-- **The tokens of a text are the token at its beginning and those of what is behind it.** -/
theorem tokenize_cons (c : Char) (cs : List Char) : tokenize fl (c :: cs) =
    (nextTok fl c cs).bind fun (t, rest) => (tokenize fl rest).map (t.toList ++ ·) := by
  unfold tokenize
  rw [Descent.many_cons keeps_nextTok]
  cases nextTok fl c cs with
  | error e => rfl
  | ok r =>
    obtain ⟨t, rest⟩ := r
    simp only [Except.bind]
    cases Descent.many (nextTok fl) rest with
    | error e => rfl
    | ok ts => cases t <;> rfl

end HeyoCi.Expr
