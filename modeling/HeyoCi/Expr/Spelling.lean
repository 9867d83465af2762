import HeyoCi.Expr.Numbers
import HeyoCi.Expr.Syntax
import Mathlib.Data.List.Forall2

/-!
# The text of an expression

* `Word`, `literal`, `Numeric`: identifiers, string literals and numbers as they are written;
* `Writes`, `Stops`, `Spells`: how a token is written, what ends it, and the texts that some tokens
  are written as, with white space between them; `stops_of_blank`, **`spells_spaced`**: white space
  ends every token;
* `nextTok_writes`, **`tokenize_spells`**: the tokens of such a text;
* **`eval_spells`**: the text of a tree evaluates to what the tree means; `eval_trailing`: other tokens
  behind it are an error.
-/

namespace HeyoCi.Expr

/-! ## Tokens as they are written -/

def Blank (gap : List Char) : Prop := ∀ c ∈ gap, isAsciiWhitespace c = true

instance (gap : List Char) : Decidable (Blank gap) := List.decidableBAll _ gap

/-- An identifier. It does not begin with a digit. -/
structure Word (name : List Char) : Prop where
  first : ∃ c cs, name = c :: cs ∧ c.isDigit = false
  all : ∀ c ∈ name, isIdentChar c = true

theorem word_cons_iff {c : Char} {cs : List Char} :
    Word (c :: cs) ↔ c.isDigit = false ∧ ∀ d ∈ c :: cs, isIdentChar d = true := by
  constructor
  · rintro ⟨⟨_, _, ⟨⟩, hc⟩, hcs⟩
    exact ⟨hc, hcs⟩
  · rintro ⟨hc, hcs⟩
    exact ⟨⟨c, cs, rfl, hc⟩, hcs⟩

instance : (name : List Char) → Decidable (Word name)
  | [] => .isFalse (by rintro ⟨⟨_, _, ⟨⟩, _⟩, _⟩)
  | _ :: _ => @decidable_of_iff _ _ word_cons_iff.symm
      (@instDecidableAnd _ _ _ (List.decidableBAll _ _))

/-- A text with its single quotes doubled. -/
def doubled (s : List Char) : List Char := s.flatMap fun c => if c = '\'' then ['\'', '\''] else [c]

/-- A single-quoted literal. -/
def literal (s : List Char) : List Char := '\'' :: (doubled s ++ ['\''])

/-- The characters that a literal is read as. -/
def readAs (s : List Char) : List Char := s.flatMap bytesAsChars

/-- All characters of a text are ASCII. -/
def Ascii (s : List Char) : Prop := ∀ c ∈ s, c.val ≤ 127

instance (s : List Char) : Decidable (Ascii s) := List.decidableBAll _ s

/-- A text that is read as one number. -/
structure Numeric (text : List Char) : Prop where
  first : ∃ c cs, text = c :: cs ∧ c.isDigit = true
  all : digits text = (text, [])

section

variable {F : Type} (fl : Floats F)

/-- The tokens that are written in one way only. -/
def Tok.mark : Tok F → Option (List Char)
  | .dot => some ['.']
  | .lParen => some ['(']
  | .rParen => some [')']
  | .comma => some [',']
  | .eqEq => some ['=', '=']
  | .notEq => some ['!', '=']
  | .gt => some ['>']
  | .ge => some ['>', '=']
  | .lt => some ['<']
  | .le => some ['<', '=']
  | .and => some ['&', '&']
  | .or => some ['|', '|']
  | .not => some ['!']
  | _ => none

/-- How a token is written. A literal is read byte by byte. -/
inductive Writes : Tok F → List Char → Prop
  | mark {t : Tok F} {text : List Char} (h : t.mark = some text) : Writes t text
  | ident {name : List Char} (h : Word name) : Writes (.ident (String.ofList name)) name
  | single (s : List Char) : Writes (.str (String.ofList (readAs s))) (literal s)
  | double {s : List Char} (h : '"' ∉ s) :
    Writes (.str (String.ofList (readAs s))) ('"' :: (s ++ ['"']))
  | num {text : List Char} {x : F} (h : Numeric text) (hx : fl.parse (String.ofList text) = some x) :
    Writes (.num x) text

/-- A token ends before some text. -/
def Stops : Tok F → List Char → Prop
  | .ident _, rest => ∀ c ∈ rest.head?, isIdentChar c = false
  | .str _, rest => rest.head? ≠ some '\''
  | .num _, rest => (digits rest).1 = []
  | .not, rest | .gt, rest | .lt, rest => rest.head? ≠ some '='
  | _, _ => True

/-- The texts of some tokens: white space before a token, and whatever ends it behind it. -/
inductive Spells : List (Tok F) → List Char → Prop
  | nil {gap : List Char} (h : Blank gap) : Spells [] gap
  | cons {gap text rest : List Char} {t : Tok F} {ts : List (Tok F)} (h : Blank gap)
    (hwrites : Writes fl t text) (hstops : Stops t rest) (hrest : Spells ts rest) :
    Spells (t :: ts) (gap ++ (text ++ rest))

end

variable {F : Type} {fl : Floats F} {gap rest s text : List Char} {c : Char} {cs : List Char}

theorem Writes.name {name : String} (h : Word name.toList) :
    Writes fl (.ident name) name.toList := by
  have hwrites : Writes fl (.ident (String.ofList name.toList)) name.toList := .ident h
  rwa [String.ofList_toList] at hwrites

/-- A token with nothing before it. -/
theorem Spells.tight {t : Tok F} {ts : List (Tok F)} (hwrites : Writes fl t text)
    (hstops : Stops t rest) (hrest : Spells fl ts rest) : Spells fl (t :: ts) (text ++ rest) := by
  have hgap : Blank [] := nofun
  exact .cons hgap hwrites hstops hrest

/-- **White space ends every token**, and so does the end of the text. -/
theorem stops_of_blank (h : ∀ c ∈ rest.head?, isAsciiWhitespace c = true) (t : Tok F) :
    Stops t rest := by
  cases rest with
  | nil => cases t <;> first | exact True.intro | rfl | exact nofun
  | cons c cs =>
    have hc : isAsciiWhitespace c = true := h c rfl
    have hcases : c = ' ' ∨ c = '\t' ∨ c = '\n' ∨ c = '\x0c' ∨ c = '\x0d' := by
      simpa [isAsciiWhitespace, or_assoc] using hc
    rcases hcases with rfl | rfl | rfl | rfl | rfl <;> cases t <;>
      first
      | trivial
      | rfl
      | exact fun heq => absurd (Option.some.inj heq) (by decide)
      | (rintro _ ⟨⟩; rfl)

/-- Tokens with white space before each of them. -/
theorem spells_spaced {ts : List (Tok F)} {texts : List (List Char × List Char)}
    (hwrites : List.Forall₂ (fun t p => Writes fl t p.2) ts texts)
    (hgaps : ∀ p ∈ texts, Blank p.1 ∧ p.1 ≠ []) : Spells fl ts (texts.flatMap fun p => p.1 ++ p.2) := by
  induction hwrites with
  | nil => exact .nil nofun
  | @cons t p ts texts hw _ ih =>
    have hrest := ih fun q hq => hgaps q (List.mem_cons_of_mem p hq)
    rw [List.flatMap_cons, List.append_assoc]
    refine .cons (hgaps p List.mem_cons_self).1 hw (stops_of_blank ?_ t) hrest
    cases texts with
    | nil => exact nofun
    | cons q texts =>
      obtain ⟨hblank, hne⟩ := hgaps q (by simp)
      obtain ⟨c, gap, hgap⟩ := List.exists_cons_of_ne_nil hne
      rw [List.flatMap_cons, hgap]
      rintro _ ⟨⟩
      exact hblank c (hgap ▸ List.mem_cons_self)

/-- Tokens with one blank before each of them. -/
theorem spells_words {ts : List (Tok F)} {words : List (List Char)}
    (h : List.Forall₂ (Writes fl) ts words) : Spells fl ts (words.flatMap fun w => ' ' :: w) := by
  have hgaps : ∀ p ∈ words.map fun w => ([' '], w), Blank p.1 ∧ p.1 ≠ [] := by
    intro p hp
    obtain ⟨w, -, rfl⟩ := List.mem_map.mp hp
    exact ⟨(by decide : Blank [' ']), List.cons_ne_nil _ _⟩
  have hspaced := spells_spaced (List.forall₂_map_right_iff.mpr h) hgaps
  rwa [List.flatMap_map] at hspaced

/-! ## What the tokenizer makes of them -/

theorem nextTok_blank (h : isAsciiWhitespace c = true) : nextTok fl c cs = .ok (none, cs) := by
  unfold nextTok
  rw [if_pos h]

theorem tokenize_blank (h : Blank gap) (rest : List Char) :
    tokenize fl (gap ++ rest) = tokenize fl rest := by
  induction gap with
  | nil => rfl
  | cons c gap ih =>
    rw [List.cons_append, tokenize_cons, nextTok_blank (h c List.mem_cons_self)]
    simp only [Except.bind, Option.toList_none, List.nil_append]
    rw [ih fun d hd => h d (List.mem_cons_of_mem c hd)]
    cases tokenize fl rest <;> rfl

/-- The characters that the marks begin with. -/
def markChars : List Char := ['.', '(', ')', ',', '=', '!', '>', '<', '&', '|']

/-- A character that no mark begins with. -/
theorem nextTok_plain (hspace : isAsciiWhitespace c = false) (hmark : c ∉ markChars) :
    nextTok fl c cs =
      if c = '\'' || c = '"' then
        (quoted c cs).map fun (lit, rest) => (some (.str (String.ofList lit)), rest)
      else if c.isDigit then match fl.parse (String.ofList (digits (c :: cs)).1) with
        | some n => .ok (some (.num n), (digits (c :: cs)).2)
        | none => .error (.badNumber (String.ofList (digits (c :: cs)).1))
      else if isIdentChar c then
        .ok (some (.ident (String.ofList (identifier (c :: cs)).1)), (identifier (c :: cs)).2)
      else .error (.unexpectedChar ((bytesAsChars c).headD c)) := by
  unfold nextTok
  rw [if_neg (by simp [hspace])]
  split <;> first | rfl | exact absurd (by decide) hmark

theorem identifier_append (hcs : ∀ c ∈ cs, isIdentChar c = true)
    (hrest : ∀ c ∈ rest.head?, isIdentChar c = false) : identifier (cs ++ rest) = (cs, rest) := by
  induction cs with
  | nil =>
    cases rest with
    | nil => rfl
    | cons c rest => simp [identifier, List.span_eq_takeWhile_dropWhile, hrest c rfl]
  | cons c cs ih =>
    rw [List.cons_append, identifier_cons (hcs c List.mem_cons_self),
      ih fun d hd => hcs d (List.mem_cons_of_mem c hd)]

theorem digits_stop (h : (digits rest).1 = []) : digits rest = ([], rest) := by
  cases rest with
  | nil => rfl
  | cons c cs =>
    rw [digits] at h ⊢
    split_ifs at h ⊢
    rfl

theorem digits_append (h : digits text = (text, [])) (hrest : (digits rest).1 = []) :
    digits (text ++ rest) = (text, rest) := by
  induction text with
  | nil => exact digits_stop hrest
  | cons c cs ih =>
    by_cases hc : (c.isDigit || (c = '.' && (cs.head?.map Char.isDigit).getD false)) = true
    · rw [digits, if_pos hc, Prod.mk.injEq, List.cons.injEq] at h
      have hcs : digits cs = (cs, []) := Prod.ext h.1.2 h.2
      have hgoes : (c.isDigit || (c = '.' && ((cs ++ rest).head?.map Char.isDigit).getD false)) =
          true := by
        cases cs with
        | nil =>
          simp only [List.head?_nil, Option.map_none, Option.getD_none, Bool.and_false,
            Bool.or_false] at hc
          rw [hc, Bool.true_or]
        | cons d cs => exact hc
      rw [List.cons_append, digits, if_pos hgoes, ih hcs]
    · rw [digits, if_neg hc] at h
      cases h

theorem quoted_doubled (h : rest.head? ≠ some '\'') :
    quoted '\'' (doubled s ++ '\'' :: rest) = .ok (readAs s, rest) := by
  induction s with
  | nil => exact quoted_shut fun _ => h
  | cons c s ih =>
    by_cases hc : c = '\''
    · subst hc
      change quoted '\'' ('\'' :: '\'' :: (doubled s ++ '\'' :: rest)) = _
      rw [quoted, if_pos rfl]
      simp only [if_true, ih]
      rfl
    · have hdoubled : doubled (c :: s) = c :: doubled s := by
        rw [doubled, List.flatMap_cons, if_neg hc]
        rfl
      rw [hdoubled, List.cons_append, quoted_ne hc, ih]
      rfl

theorem quoted_plain (h : '"' ∉ s) : quoted '"' (s ++ '"' :: rest) = .ok (readAs s, rest) := by
  induction s with
  | nil => exact quoted_shut fun hquote => absurd hquote (by decide)
  | cons c s ih =>
    have hc : c ≠ '"' := fun heq => h (heq ▸ List.mem_cons_self)
    rw [List.cons_append, quoted_ne hc, ih fun hmem => h (List.mem_cons_of_mem c hmem)]
    rfl

/-- A mark is its own token. -/
theorem nextTok_mark {t : Tok F} (h : t.mark = some (c :: cs)) (hstops : Stops t rest) :
    nextTok fl c (cs ++ rest) = .ok (some t, rest) := by
  cases t <;> simp only [Tok.mark, reduceCtorEq, Option.some.injEq, List.cons.injEq] at h
  all_goals
    obtain ⟨rfl, rfl⟩ := h
    first
    | rfl
    | cases rest with
      | nil => rfl
      | cons d rest =>
        have hd : d ≠ '=' := fun heq => hstops (congrArg some heq)
        unfold nextTok
        rw [if_neg (by decide)]
        split <;> simp_all

theorem isIdentChar_plain (h : isIdentChar c = true) :
    isAsciiWhitespace c = false ∧ c ∉ markChars ∧ c ≠ '\'' ∧ c ≠ '"' := by
  have hne : ∀ d : Char, isIdentChar d = false → c ≠ d := by
    rintro d hd rfl
    rw [hd] at h
    cases h
  refine ⟨?_, ?_, hne _ (by decide), hne _ (by decide)⟩
  · simp [isAsciiWhitespace, hne ' ' (by decide), hne '\t' (by decide), hne '\n' (by decide),
      hne '\x0c' (by decide), hne '\x0d' (by decide)]
  · intro hmem
    have hmark : markChars.any isIdentChar = false := by decide
    exact List.any_eq_false.mp hmark c hmem h

/-- A number is what `str::parse` makes of it. -/
theorem nextTok_num (h : Numeric text) (hrest : (digits rest).1 = []) :
    ∃ c cs, text = c :: cs ∧ nextTok fl c (cs ++ rest) = match fl.parse (String.ofList text) with
      | some n => .ok (some (.num n), rest)
      | none => .error (.badNumber (String.ofList text)) := by
  obtain ⟨c, cs, rfl, hc⟩ := h.first
  have hident : isIdentChar c = true := by simp [isIdentChar, Char.isAlphanum, hc]
  obtain ⟨hspace, hmark, hsingle, hdouble⟩ := isIdentChar_plain hident
  refine ⟨c, cs, rfl, ?_⟩
  rw [nextTok_plain hspace hmark, if_neg (by simp [hsingle, hdouble]), if_pos hc,
    ← List.cons_append, digits_append h.all hrest]

/-- **A token is read from how it is written.** -/
theorem nextTok_writes {t : Tok F} (h : Writes fl t text) (hstops : Stops t rest) :
    ∃ c cs, text = c :: cs ∧ nextTok fl c (cs ++ rest) = .ok (some t, rest) := by
  cases h with
  | mark hmark =>
    cases text with
    | nil => cases t <;> cases hmark
    | cons c cs => exact ⟨c, cs, rfl, nextTok_mark hmark hstops⟩
  | ident hword =>
    obtain ⟨c, cs, rfl, hdigit⟩ := hword.first
    have hc : isIdentChar c = true := hword.all c List.mem_cons_self
    obtain ⟨hspace, hmark, hsingle, hdouble⟩ := isIdentChar_plain hc
    refine ⟨c, cs, rfl, ?_⟩
    rw [nextTok_plain hspace hmark, if_neg (by simp [hsingle, hdouble]), if_neg (by simp [hdigit]),
      if_pos hc, ← List.cons_append, identifier_append hword.all hstops]
  | single s =>
    refine ⟨'\'', doubled s ++ ['\''], rfl, ?_⟩
    rw [nextTok_plain rfl (by decide), if_pos (by decide), List.append_assoc, List.singleton_append,
      quoted_doubled hstops]
    rfl
  | @double s hs =>
    refine ⟨'"', s ++ ['"'], rfl, ?_⟩
    rw [nextTok_plain rfl (by decide), if_pos (by decide), List.append_assoc, List.singleton_append,
      quoted_plain hs]
    rfl
  | num hnum hx =>
    obtain ⟨c, cs, heq, hnext⟩ := nextTok_num hnum hstops
    exact ⟨c, cs, heq, by rw [hnext, hx]⟩

/-- **The tokens of a text that is written as some tokens are these.** -/
theorem tokenize_spells {ts : List (Tok F)} (h : Spells fl ts text) : tokenize fl text = .ok ts := by
  induction h with
  | @nil gap hgap =>
    have hblank : tokenize fl (gap ++ []) = tokenize fl [] := tokenize_blank hgap []
    rw [List.append_nil] at hblank
    exact hblank
  | cons hgap hwrites hstops _ ih =>
    obtain ⟨c, cs, rfl, hnext⟩ := nextTok_writes hwrites hstops
    rw [tokenize_blank hgap, List.cons_append, tokenize_cons, hnext]
    simp only [Except.bind, ih]
    rfl

/-- **The text of a tree evaluates to what the tree means.** -/
theorem eval_spells {ctx : Json.Obj} {e : Ast F} (he : e.Readable fl)
    (h : Spells fl (e.tokens fl 0) text) : eval fl ctx text = e.value fl ctx := by
  rw [eval, tokenize_spells h]
  exact parseOr_tokens he

/-- What does not go on with an expression is left behind it. -/
theorem eval_trailing {ctx : Json.Obj} {e : Ast F} (he : e.Readable fl) {t : Tok F}
    {ts : List (Tok F)} (ht : Behind 0 (t :: ts)) (h : Spells fl (e.tokens fl 0 ++ t :: ts) text) :
    eval fl ctx text = (e.value fl ctx).bind fun _ => .error (.trailing (t.debug fl)) := by
  have hread : Descent.Reads (parseOr fl ctx) (Behind 0) (e.tokens fl 0) (e.value fl ctx) :=
    reads_parseOr ((e.read he).within (Nat.zero_le 4))
  rw [eval, tokenize_spells h]
  simp only [Except.bind]
  rw [hread (t :: ts) ht]
  cases e.value fl ctx <;> rfl

end HeyoCi.Expr
