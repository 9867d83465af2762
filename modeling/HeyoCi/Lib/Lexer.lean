import Mathlib.Data.List.Basic
import Mathlib.Tactic.SplitIfs

/-!
# How a shell reads a script

Quoting and the recognition of tokens in a POSIX shell, as an automaton over the letters of a script.
What it does not follow it reads no further: backquotes, arithmetic, here-documents, and quotes inside
braces inside double quotes. The patterns of a `case` in a command substitution are not told from its end.

* `Letter`, `Tok`, `Lexer`: the letters of words, the tokens, and where the reading is;
* `Lexer.step`, `Lexer.text`: one letter, and a text;
* `quote`, **`text_quote`**: a value in single quotes is letters that stand for themselves;
  **`text_quote_break`**: and one word, where a word begins and ends;
* `Sym`, `fill`, `Lexer.run`: a script with places for values, and how it is read;
* `Lexer.subst`, `Lexer.placed`, **`text_fill`**: with values in its places it has the same tokens, with
  the values in them.
-/

namespace Shell

/-! ## Tokens -/

/-- A letter of a word: without quotes, in double quotes, or one that stands for itself; or the place
of a value. -/
inductive Letter (H : Type) where
  | plain (c : Char)
  | soft (c : Char)
  | quoted (c : Char)
  | hole (h : H)
  deriving Repr, DecidableEq

inductive Tok (H : Type) where
  | word (quoted : Bool) (letters : List (Letter H))
  /-- The number of a redirection. -/
  | number (letters : List (Letter H))
  | op (letters : List Char)
  /-- A word up to a command substitution in it. -/
  | enter (quoted : Bool) (letters : List (Letter H))
  /-- The end of a command substitution; what comes next belongs to the word around it. -/
  | leave
  /-- A letter that is not read. -/
  | lost (c : Char)
  deriving Repr, DecidableEq

/-- How the letters of a word are written: digits without quotes, without quotes, or some in quotes. -/
inductive Kind where
  | digits
  | bare
  | quoted
  deriving Repr, DecidableEq

def Kind.join : Kind → Kind → Kind
  | digits, k => k
  | bare, quoted => quoted
  | bare, _ => bare
  | quoted, _ => quoted

/-- The token that is being read. -/
inductive Current (H : Type) where
  | none
  | word (kind : Kind) (letters : List (Letter H))
  | op (letters : List Char)
  deriving Repr, DecidableEq

/-- The token as it ends, in front of a redirection or not. -/
def Current.toks {H : Type} (redirects : Bool) : Current H → List (Tok H)
  | none => []
  | word .digits letters => [if redirects then .number letters else .word false letters]
  | word .bare letters => [.word false letters]
  | word .quoted letters => [.word true letters]
  | op letters => [.op letters]

/-- What a closing letter is awaited for: a command substitution and a parameter, inside double quotes
or not, and parentheses. -/
inductive Frame where
  | command (soft : Bool)
  | brace (soft : Bool)
  | paren
  deriving Repr, DecidableEq

inductive Mode where
  | normal
  | single
  | escape
  /-- A dollar sign has been read. -/
  | dollar
  /-- A command substitution has been opened. -/
  | opened
  | comment
  | lost
  deriving Repr, DecidableEq

/-- Where the reading is: `soft` in double quotes. -/
structure Lexer (H : Type) where
  mode : Mode
  soft : Bool
  within : List Frame
  cur : Current H
  done : List (Tok H)
  deriving Repr, DecidableEq

/-- The operators of two letters. -/
def operators : List (List Char) :=
  [['&', '&'], ['|', '|'], [';', ';'], ['<', '<'], ['>', '>'], ['<', '&'], ['>', '&'], ['<', '>'],
    ['>', '|']]

def isBlank (c : Char) : Bool := c = ' ' || c = '\t'

def isOperator (c : Char) : Bool := ['\n', ';', '&', '|', '<', '>', '(', ')'].contains c

/-- A letter in single quotes. A single quote is put outside of them. -/
def inner (c : Char) : List Char := if c = '\'' then ['\'', '\\', '\'', '\''] else [c]

def quote (cs : List Char) : List Char := '\'' :: cs.flatMap inner ++ ['\'']

namespace Lexer

variable {H : Type}

def start : Lexer H := ⟨.normal, false, [], .none, []⟩

def toMode (l : Lexer H) (mode : Mode) : Lexer H := { l with mode }

def toSoft (l : Lexer H) (soft : Bool) : Lexer H := { l with soft }

def push (l : Lexer H) (frame : Frame) : Lexer H := { l with within := frame :: l.within }

def pop (l : Lexer H) : Lexer H := { l with within := l.within.tail }

/-- All tokens of a text that ends here. -/
def tokens (l : Lexer H) : List (Tok H) := l.done ++ l.cur.toks false

/-- Letters of the word that is being read, or of one that begins. -/
def put (l : Lexer H) (kind : Kind) (letters : List (Letter H)) : Lexer H := match l.cur with
  | .word k ps => { l with cur := .word (k.join kind) (ps ++ letters) }
  | cur => { l with cur := .word kind letters, done := l.done ++ cur.toks false }

/-- The token that is being read ends. -/
def cut (l : Lexer H) (redirects : Bool) : Lexer H :=
  { l with cur := .none, done := l.done ++ l.cur.toks redirects }

/-- From here on nothing is read. -/
def lose (l : Lexer H) (c : Char) : Lexer H :=
  { l with mode := .lost, cur := .none, done := l.done ++ l.cur.toks false ++ [.lost c] }

/-- A letter of an operator. What is behind `<<` is not read. -/
def operator (l : Lexer H) (c : Char) : Lexer H := match l.cur with
  | .op cs => if operators.contains (cs ++ [c]) then
      { l with cur := .op (cs ++ [c]), mode := if c = '<' then .lost else l.mode }
    else { l with cur := .op [c], done := l.done ++ [.op cs] }
  | cur => { l with cur := .op [c], done := l.done ++ cur.toks (c = '<' || c = '>') }

/-- In the braces of a parameter, and in no quotes that were opened there. -/
def inBrace (l : Lexer H) : Bool := l.within.head? = some (.brace l.soft)

/-- Between words: the token that is being read is none. -/
def isBetween (l : Lexer H) : Bool := match l.cur with
  | .word _ _ => false
  | _ => true

/-- A letter in double quotes. -/
def stepSoft (l : Lexer H) (c : Char) : Lexer H :=
  if c = '"' then if l.inBrace then l.lose c else l.toSoft false
  else if c = '\\' then l.toMode .escape
  else if c = '$' then l.toMode .dollar
  else if c = '\x60' then l.lose c
  else if c = '}' && l.inBrace then (l.put .quoted [.soft c]).pop
  else l.put .quoted [.soft c]

/-- A closing parenthesis. -/
def close (l : Lexer H) : Lexer H := match l.within with
  | .command soft :: within =>
    { l with soft, within, cur := .word .quoted [], done := l.done ++ l.cur.toks false ++ [.leave] }
  | .paren :: _ => (l.operator ')').pop
  | _ => l.operator ')'

/-- A letter in no quotes. -/
def stepBare (l : Lexer H) (c : Char) : Lexer H :=
  if c = '\'' then (l.put .quoted []).toMode .single
  else if c = '"' then (l.put .quoted []).toSoft true
  else if c = '\\' then l.toMode .escape
  else if c = '$' then l.toMode .dollar
  else if c = '\x60' then l.lose c
  else if l.inBrace then
    if c = '}' then (l.put .bare [.plain c]).pop else l.put .bare [.plain c]
  else if isBlank c then l.cut false
  else if c = ')' then l.close
  else if c = '(' then (l.operator c).push .paren
  else if isOperator c then l.operator c
  else if c = '#' && l.isBetween then (l.cut false).toMode .comment
  else l.put (if c.isDigit then .digits else .bare) [.plain c]

def stepNormal (l : Lexer H) (c : Char) : Lexer H := if l.soft then l.stepSoft c else l.stepBare c

/-- A letter that is no quote, as it stands here. -/
def letter (l : Lexer H) (c : Char) : Letter H := if l.soft then .soft c else .plain c

def kind (l : Lexer H) : Kind := if l.soft then .quoted else .bare

/-- A command substitution begins. -/
def enter (l : Lexer H) : Lexer H where
  mode := .opened
  soft := false
  within := .command l.soft :: l.within
  cur := .none
  done := l.done ++ match l.cur with
    | .word k letters => [.enter (k = .quoted) letters]
    | cur => cur.toks false ++ [.enter l.soft []]

def stepEscape (l : Lexer H) (c : Char) : Lexer H :=
  if c = '\n' then l
  -- in double quotes a backslash in front of another letter is one
  else if l.soft && !(['$', '\x60', '"', '\\'].contains c) then l.put .quoted [.soft '\\', .soft c]
  else l.put .quoted [.quoted c]

def stepDollar (l : Lexer H) (c : Char) : Lexer H :=
  if c = '(' then l.enter
  else if c = '{' then (l.put l.kind [l.letter '$', l.letter c]).push (.brace l.soft)
  else if c = '\'' && !l.soft then l.lose c
  else (l.put l.kind [l.letter '$']).stepNormal c

/-- **A letter is read.** -/
def step (l : Lexer H) (c : Char) : Lexer H := match l.mode with
  | .normal => l.stepNormal c
  | .single => if c = '\'' then l.toMode .normal else l.put .quoted [.quoted c]
  | .escape => (l.toMode .normal).stepEscape c
  | .dollar => (l.toMode .normal).stepDollar c
  | .opened => if c = '(' then l.lose c else (l.toMode .normal).stepNormal c
  | .comment => if c = '\n' then (l.toMode .normal).operator c else l
  | .lost => { l with done := l.done ++ [.lost c] }

def text (l : Lexer H) (cs : List Char) : Lexer H := cs.foldl step l

theorem text_append (l : Lexer H) (cs ds : List Char) : l.text (cs ++ ds) = (l.text cs).text ds :=
  List.foldl_append

/-! ## A value in single quotes -/

/-- Outside of quotes and braces, where a word may go on or begin. -/
def isOpen (l : Lexer H) : Bool := l.mode = .normal && !l.soft && !l.inBrace

theorem isOpen_iff {l : Lexer H} :
    l.isOpen = true ↔ l.mode = .normal ∧ l.soft = false ∧ l.inBrace = false := by
  simp [isOpen, and_assoc]

variable {l : Lexer H}

/-- A lexer in a word, some of which is in quotes. -/
def inWord (l : Lexer H) (mode : Mode) (letters : List (Letter H)) : Lexer H :=
  { l with mode, cur := .word .quoted letters }

theorem put_inWord (mode : Mode) (ps letters : List (Letter H)) :
    (l.inWord mode ps).put .quoted letters = l.inWord mode (ps ++ letters) := rfl

theorem Kind.join_quoted (k : Kind) : k.join .quoted = .quoted := by
  cases k <;> rfl

/-- Letters in quotes are letters of a word, which may begin with them. -/
theorem put_quoted_eq (l : Lexer H) : ∃ (l' : Lexer H) (ps : List (Letter H)), l'.soft = l.soft ∧
    ∀ letters, l.put .quoted letters = l'.inWord l.mode (ps ++ letters) := by
  cases hcur : l.cur with
  | word k qs =>
    refine ⟨l, qs, rfl, fun letters => ?_⟩
    rw [put, hcur]
    simp only [Kind.join_quoted]
    rfl
  | none =>
    refine ⟨{ l with done := l.done ++ Current.none.toks false }, [], rfl, fun letters => ?_⟩
    rw [put, hcur]
    rfl
  | op cs =>
    refine ⟨{ l with done := l.done ++ (Current.op cs).toks false }, [], rfl, fun letters => ?_⟩
    rw [put, hcur]
    rfl

/-- The letters of a value up to the quote that ends it. -/
theorem text_inner (hsoft : l.soft = false) (ps : List (Letter H)) (cs : List Char) :
    (l.inWord .single ps).text (cs.flatMap inner ++ ['\'']) =
      l.inWord .normal (ps ++ cs.map .quoted) := by
  induction cs generalizing ps with
  | nil =>
    rw [List.map_nil, List.append_nil]
    rfl
  | cons c cs ih =>
    have hletter : (l.inWord .single ps).text (inner c) = l.inWord .single (ps ++ [.quoted c]) := by
      by_cases hc : c = '\''
      · subst hc
        have hread : (l.inWord .normal ps).stepNormal '\\' = l.inWord .escape ps := by
          rw [stepNormal, if_neg (by rw [inWord, hsoft]; exact Bool.false_ne_true)]
          rfl
        have hescape : (l.inWord .normal ps).stepEscape '\'' = l.inWord .normal (ps ++ [.quoted '\'']) := by
          rw [stepEscape, if_neg (by decide), if_neg]
          · rfl
          · rw [Bool.and_eq_true]
            exact fun h => Bool.false_ne_true (hsoft.symm.trans h.1)
        have hopen : (l.inWord .normal (ps ++ [.quoted '\''])).stepNormal '\'' =
            l.inWord .single (ps ++ [.quoted '\'']) := by
          rw [stepNormal, if_neg (by rw [inWord, hsoft]; exact Bool.false_ne_true), stepBare,
            if_pos rfl, put_inWord, List.append_nil]
          rfl
        rw [inner, if_pos rfl]
        change (((l.inWord .normal ps).stepNormal '\\').step '\'').step '\'' = _
        rw [hread]
        change ((l.inWord .normal ps).stepEscape '\'').step '\'' = _
        rw [hescape]
        exact hopen
      · rw [inner, if_neg hc]
        change (if c = '\'' then _ else _) = _
        rw [if_neg hc]
        rfl
    rw [List.flatMap_cons, List.append_assoc, text_append, hletter, ih, List.map_cons,
      List.append_assoc, List.singleton_append]

/-- **A value in single quotes is letters that stand for themselves**, wherever a word may be. -/
theorem text_quote (h : l.isOpen = true) (cs : List Char) :
    l.text (quote cs) = l.put .quoted (cs.map .quoted) := by
  obtain ⟨hmode, hsoft, -⟩ := isOpen_iff.mp h
  obtain ⟨l', ps, hsoft', hput⟩ := put_quoted_eq l
  have hfirst : l.step '\'' = l'.inWord .single ps := by
    rw [step, hmode]
    change l.stepNormal '\'' = _
    rw [stepNormal, if_neg (by rw [hsoft]; exact Bool.false_ne_true), stepBare, if_pos rfl, hput,
      List.append_nil]
    rfl
  change (l.step '\'').text (cs.flatMap inner ++ ['\'']) = _
  rw [hfirst, text_inner (hsoft'.trans hsoft), hput, hmode]

/-! ## One word -/

/-- White space and operators. -/
def isBreak (c : Char) : Bool := isBlank c || isOperator c

/-- The word has been read. -/
def ended (l : Lexer H) (letters : List (Letter H)) : Lexer H :=
  { l with cur := .none, done := l.done ++ [.word true letters] }

theorem cut_inWord (ps : List (Letter H)) (redirects : Bool) :
    (l.inWord l.mode ps).cut redirects = (l.ended ps).cut redirects := by
  simp [inWord, ended, cut, Current.toks]

theorem operator_inWord (ps : List (Letter H)) (c : Char) :
    (l.inWord l.mode ps).operator c = (l.ended ps).operator c := by
  simp [inWord, ended, operator, Current.toks]

theorem close_inWord (ps : List (Letter H)) : (l.inWord l.mode ps).close = (l.ended ps).close := by
  rw [close, close, operator_inWord]
  simp [inWord, ended, Current.toks]

/-- What ends a word ends it, or finds it ended. -/
theorem step_inWord {c : Char} (hc : isBreak c = true) (h : l.isOpen = true) (ps : List (Letter H)) :
    (l.inWord l.mode ps).step c = (l.ended ps).step c := by
  obtain ⟨hmode, hsoft, hbrace⟩ := isOpen_iff.mp h
  have hne : ∀ d, isBreak d = false → c ≠ d := by
    rintro d hd rfl
    rw [hd] at hc
    cases hc
  have hbare : (l.inWord l.mode ps).stepBare c = (l.ended ps).stepBare c := by
    have hbrace' : (l.inWord l.mode ps).inBrace = false := hbrace
    have hbrace'' : (l.ended ps).inBrace = false := hbrace
    rw [stepBare, stepBare, if_neg (hne '\'' rfl), if_neg (hne '"' rfl), if_neg (hne '\\' rfl),
      if_neg (hne '$' rfl), if_neg (hne '\x60' rfl), hbrace', if_neg Bool.false_ne_true,
      if_neg (hne '\'' rfl), if_neg (hne '"' rfl), if_neg (hne '\\' rfl), if_neg (hne '$' rfl),
      if_neg (hne '\x60' rfl), hbrace'', if_neg Bool.false_ne_true, cut_inWord, close_inWord,
      operator_inWord]
    rw [isBreak, Bool.or_eq_true] at hc
    by_cases hblank : isBlank c = true
    · rw [if_pos hblank, if_pos hblank]
    have hop : isOperator c = true := hc.resolve_left hblank
    rw [if_neg hblank, if_neg hblank, if_pos hop, if_pos hop]
  have hnormal : ∀ m : Lexer H, m.mode = .normal → m.soft = false → m.step c = m.stepBare c := by
    intro m hm hs
    rw [step, hm]
    change m.stepNormal c = _
    rw [stepNormal, hs, if_neg Bool.false_ne_true]
  exact (hnormal (l.inWord l.mode ps) hmode hsoft).trans
    (hbare.trans (hnormal (l.ended ps) hmode hsoft).symm)

/-- Between words a word begins. -/
theorem put_of_isBetween (hcur : l.isBetween = true) (letters : List (Letter H)) :
    l.put .quoted letters = inWord { l with done := l.tokens } l.mode letters := by
  rw [put]
  cases hl : l.cur with
  | word k ps =>
    rw [isBetween, hl] at hcur
    cases hcur
  | none => simp [inWord, tokens, hl]
  | op ds => simp [inWord, tokens, hl]

/-- **A value in single quotes is one word**, where a word may begin and one ends behind it. -/
theorem text_quote_break (h : l.isOpen = true) (hcur : l.isBetween = true) {c : Char}
    (hc : isBreak c = true) (cs rest : List Char) :
    l.text (quote cs ++ c :: rest) =
      text { l with cur := .none, done := l.tokens ++ [.word true (cs.map .quoted)] } (c :: rest) := by
  have hopen : isOpen { l with done := l.tokens } = true := h
  rw [text_append, text_quote h, put_of_isBetween hcur]
  exact congrArg (text · rest) (step_inWord hc hopen _)

/-- The end of a text ends a word, too. -/
theorem tokens_text_quote (h : l.isOpen = true) (hcur : l.isBetween = true) (cs : List Char) :
    (l.text (quote cs)).tokens = l.tokens ++ [.word true (cs.map .quoted)] := by
  rw [text_quote h, put_of_isBetween hcur]
  rfl

end Lexer

/-! ## Scripts with places for values -/

/-- A letter of a script, or a place in it. -/
inductive Sym (H : Type) where
  | char (c : Char)
  | hole (h : H)
  deriving Repr, DecidableEq

section Places

variable {H G : Type}

/-- A script with quoted values in its places. -/
def fill (value : H → List Char) (t : List (Sym H)) : List Char := t.flatMap fun
  | .char c => [c]
  | .hole h => quote (value h)

/-- Values of letters that stand for themselves. -/
def inQuotes (value : H → List Char) (h : H) : List (Letter G) := (value h).map .quoted

section

variable (parts : H → List (Letter G))

def Letter.subst : Letter H → List (Letter G)
  | plain c => [plain c]
  | soft c => [soft c]
  | quoted c => [quoted c]
  | hole h => parts h

def Tok.subst : Tok H → Tok G
  | word q letters => word q (letters.flatMap (Letter.subst parts))
  | number letters => number (letters.flatMap (Letter.subst parts))
  | op letters => op letters
  | enter q letters => enter q (letters.flatMap (Letter.subst parts))
  | leave => leave
  | lost c => lost c

def Current.subst : Current H → Current G
  | none => none
  | word kind letters => word kind (letters.flatMap (Letter.subst parts))
  | op letters => op letters

namespace Lexer

/-- With letters in the places. -/
def subst (l : Lexer H) : Lexer G where
  mode := l.mode
  soft := l.soft
  within := l.within
  cur := l.cur.subst parts
  done := l.done.map (Tok.subst parts)

end Lexer

end

variable {parts : H → List (Letter G)} {value : H → List Char}

namespace Lexer

/-- A place is a letter of a word, some of which is in quotes. -/
def hole (l : Lexer H) (h : H) : Lexer H := l.put .quoted [.hole h]

def stepSym (l : Lexer H) : Sym H → Lexer H
  | .char c => l.step c
  | .hole h => l.hole h

def run (l : Lexer H) (t : List (Sym H)) : Lexer H := t.foldl stepSym l

/-- The places are where a word may be. -/
def placed (l : Lexer H) : List (Sym H) → Bool
  | [] => true
  | .char c :: t => (l.step c).placed t
  | .hole h :: t => l.isOpen && (l.hole h).placed t

variable {l : Lexer H}

theorem toks_subst (redirects : Bool) (cur : Current H) :
    (cur.subst parts : Current G).toks redirects = (cur.toks redirects).map (Tok.subst parts) := by
  cases cur with
  | none => rfl
  | word kind letters =>
    cases kind with
    | digits => cases redirects <;> rfl
    | bare => rfl
    | quoted => rfl
  | op cs => rfl

theorem subst_plain (cs : List Char) :
    ((cs.map .plain).flatMap (Letter.subst parts) : List (Letter G)) = cs.map .plain := by
  rw [List.flatMap_map]
  exact List.map_eq_flatMap.symm

theorem subst_quoted (cs : List Char) :
    ((cs.map .quoted).flatMap (Letter.subst parts) : List (Letter G)) = cs.map .quoted := by
  rw [List.flatMap_map]
  exact List.map_eq_flatMap.symm

theorem current_subst_none : (Current.none : Current H).subst parts = (.none : Current G) := rfl

theorem current_subst_word (k : Kind) (ps : List (Letter H)) : (Current.word k ps).subst parts =
    (.word k (ps.flatMap (Letter.subst parts)) : Current G) := rfl

theorem subst_put (l : Lexer H) (kind : Kind) (letters : List (Letter H)) :
    ((l.put kind letters).subst parts : Lexer G) =
      (l.subst parts).put kind (letters.flatMap (Letter.subst parts)) := by
  unfold put
  cases hcur : l.cur with
  | none => simp [subst, hcur, Current.subst, Current.toks]
  | word k ps => simp [subst, hcur, Current.subst]
  | op cs => simp [subst, hcur, Current.subst, Current.toks, Tok.subst]

theorem subst_cut (l : Lexer H) (redirects : Bool) :
    ((l.cut redirects).subst parts : Lexer G) = (l.subst parts).cut redirects := by
  simp [cut, subst, toks_subst, current_subst_none]

theorem subst_lose (l : Lexer H) (c : Char) :
    ((l.lose c).subst parts : Lexer G) = (l.subst parts).lose c := by
  simp [lose, subst, toks_subst, current_subst_none, Tok.subst]

theorem subst_operator (l : Lexer H) (c : Char) :
    ((l.operator c).subst parts : Lexer G) = (l.subst parts).operator c := by
  unfold operator
  cases hcur : l.cur with
  | none => simp [subst, hcur, Current.subst, Current.toks]
  | word k ps =>
    have htoks : ∀ r, (Current.toks r (.word k (ps.flatMap (Letter.subst parts))) : List (Tok G)) =
        (Current.toks r (.word k ps)).map (Tok.subst parts) := fun r => toks_subst r (.word k ps)
    simp only [subst, hcur, Current.subst, htoks, List.map_append]
  | op cs =>
    simp only [subst, hcur, Current.subst]
    split_ifs <;> simp [Tok.subst]

theorem subst_close (l : Lexer H) : ((l.close).subst parts : Lexer G) = (l.subst parts).close := by
  unfold close
  have hwithin : (l.subst parts : Lexer G).within = l.within := rfl
  rw [hwithin]
  split
  · simp [subst, toks_subst, current_subst_word, Tok.subst]
  · rw [← subst_operator]
    rfl
  · exact subst_operator l ')'

theorem subst_enter (l : Lexer H) : ((l.enter).subst parts : Lexer G) = (l.subst parts).enter := by
  unfold enter
  cases hcur : l.cur with
  | none => simp [subst, hcur, Current.subst, Current.toks, Tok.subst]
  | word k ps => simp [subst, hcur, Current.subst, Tok.subst]
  | op cs => simp [subst, hcur, Current.subst, Current.toks, Tok.subst]

theorem subst_toMode (l : Lexer H) (mode : Mode) :
    ((l.toMode mode).subst parts : Lexer G) = (l.subst parts).toMode mode := rfl

theorem subst_toSoft (l : Lexer H) (soft : Bool) :
    ((l.toSoft soft).subst parts : Lexer G) = (l.subst parts).toSoft soft := rfl

theorem subst_push (l : Lexer H) (frame : Frame) :
    ((l.push frame).subst parts : Lexer G) = (l.subst parts).push frame := rfl

theorem subst_pop (l : Lexer H) : (l.pop.subst parts : Lexer G) = (l.subst parts).pop := rfl

theorem isBetween_subst (l : Lexer H) : (l.subst parts : Lexer G).isBetween = l.isBetween := by
  unfold isBetween
  cases hcur : l.cur <;> simp [subst, hcur, Current.subst]

theorem subst_putChar (l : Lexer H) (kind : Kind) (c : Char) :
    ((l.put kind [.plain c]).subst parts : Lexer G) = (l.subst parts).put kind [.plain c] ∧
    ((l.put kind [.soft c]).subst parts : Lexer G) = (l.subst parts).put kind [.soft c] ∧
    ((l.put kind [.quoted c]).subst parts : Lexer G) = (l.subst parts).put kind [.quoted c] :=
  ⟨subst_put l _ _, subst_put l _ _, subst_put l _ _⟩

theorem subst_stepSoft (l : Lexer H) (c : Char) :
    ((l.stepSoft c).subst parts : Lexer G) = (l.subst parts).stepSoft c := by
  have hbrace : (l.subst parts : Lexer G).inBrace = l.inBrace := rfl
  simp only [stepSoft, apply_ite (subst parts), subst_lose, subst_toSoft, subst_toMode, subst_pop,
    subst_putChar, hbrace]

theorem subst_stepBare (l : Lexer H) (c : Char) :
    ((l.stepBare c).subst parts : Lexer G) = (l.subst parts).stepBare c := by
  have hbrace : (l.subst parts : Lexer G).inBrace = l.inBrace := rfl
  have hempty : ((l.put .quoted []).subst parts : Lexer G) = (l.subst parts).put .quoted [] :=
    subst_put l _ _
  simp only [stepBare, apply_ite (subst parts), subst_lose, subst_toSoft, subst_toMode, subst_pop,
    subst_push, subst_putChar, subst_cut, subst_close, subst_operator, hempty, hbrace,
    isBetween_subst]

theorem subst_stepNormal (l : Lexer H) (c : Char) :
    ((l.stepNormal c).subst parts : Lexer G) = (l.subst parts).stepNormal c := by
  have hsoft : (l.subst parts : Lexer G).soft = l.soft := rfl
  simp only [stepNormal, apply_ite (subst parts), subst_stepSoft, subst_stepBare, hsoft]

theorem subst_stepEscape (l : Lexer H) (c : Char) :
    ((l.stepEscape c).subst parts : Lexer G) = (l.subst parts).stepEscape c := by
  have hsoft : (l.subst parts : Lexer G).soft = l.soft := rfl
  have htwo : ((l.put .quoted [.soft '\\', .soft c]).subst parts : Lexer G) =
      (l.subst parts).put .quoted [.soft '\\', .soft c] := subst_put l _ _
  simp only [stepEscape, apply_ite (subst parts), subst_putChar, htwo, hsoft]

theorem subst_stepDollar (l : Lexer H) (c : Char) :
    ((l.stepDollar c).subst parts : Lexer G) = (l.subst parts).stepDollar c := by
  have hsoft : (l.subst parts : Lexer G).soft = l.soft := rfl
  have hletter : ∀ d, [l.letter d].flatMap (Letter.subst parts) =
      [(l.subst parts : Lexer G).letter d] := by
    intro d
    rw [letter, letter, hsoft]
    cases l.soft <;> rfl
  have hone : ((l.put l.kind [l.letter '$']).subst parts : Lexer G) =
      (l.subst parts).put l.kind [(l.subst parts : Lexer G).letter '$'] := by
    rw [subst_put, hletter]
  have htwo : ((l.put l.kind [l.letter '$', l.letter c]).subst parts : Lexer G) =
      (l.subst parts).put l.kind
        [(l.subst parts : Lexer G).letter '$', (l.subst parts : Lexer G).letter c] := by
    have hletters : [l.letter '$', l.letter c].flatMap (Letter.subst parts) =
        [(l.subst parts : Lexer G).letter '$'] ++ [(l.subst parts : Lexer G).letter c] := by
      rw [← hletter, ← hletter, ← List.flatMap_append]
      rfl
    rw [subst_put, hletters]
    rfl
  have hkind : (l.subst parts : Lexer G).kind = l.kind := rfl
  simp only [stepDollar, apply_ite (subst parts), subst_enter, subst_push, subst_lose,
    subst_stepNormal, hone, htwo, hsoft, hkind]

/-- **Values and letters do not get in each other's way.** -/
theorem subst_step (l : Lexer H) (c : Char) :
    ((l.step c).subst parts : Lexer G) = (l.subst parts).step c := by
  have hmode : (l.subst parts : Lexer G).mode = l.mode := rfl
  unfold step
  rw [hmode]
  cases l.mode with
  | normal => exact subst_stepNormal l c
  | single => simp only [apply_ite (subst parts), subst_toMode, subst_putChar]
  | escape => exact subst_stepEscape _ c
  | dollar => exact subst_stepDollar _ c
  | opened =>
    simp only [apply_ite (subst parts), subst_lose, subst_stepNormal, subst_toMode]
  | comment => simp only [apply_ite (subst parts), subst_operator, subst_toMode]
  | lost => simp [subst, Tok.subst]

/-- A text is read as with other letters in the words before it. -/
theorem subst_text (l : Lexer H) (cs : List Char) :
    ((l.text cs).subst parts : Lexer G) = (l.subst parts).text cs := by
  induction cs generalizing l with
  | nil => rfl
  | cons c cs ih =>
    change ((l.step c).text cs).subst parts = ((l.subst parts).step c).text cs
    rw [ih, subst_step]

/-- **With values in its places a script is read as without them**, the values being letters of the words
they are in. -/
theorem text_fill {t : List (Sym H)} (h : l.placed t = true) :
    (l.subst (inQuotes value) : Lexer G).text (fill value t) = (l.run t).subst (inQuotes value) := by
  induction t generalizing l with
  | nil => rfl
  | cons s t ih =>
    cases s with
    | char c =>
      have hrest : (l.step c).placed t = true := h
      change ((l.subst (inQuotes value)).step c).text (fill value t) = _
      rw [← subst_step, ih hrest]
      rfl
    | hole p =>
      rw [placed, Bool.and_eq_true] at h
      have hopen : (l.subst (inQuotes value) : Lexer G).isOpen = true := h.1
      have hput : ((l.hole p).subst (inQuotes value) : Lexer G) =
          (l.subst (inQuotes value)).put .quoted ((value p).map .quoted) := by
        rw [hole, subst_put, List.flatMap_singleton]
        rfl
      change (l.subst (inQuotes value)).text (quote (value p) ++ fill value t) = _
      rw [text_append, text_quote hopen, ← hput, ih h.2]
      rfl

/-! ## Scripts by their pieces -/

theorem run_append (l : Lexer H) (t t' : List (Sym H)) : l.run (t ++ t') = (l.run t).run t' :=
  List.foldl_append

theorem run_chars (l : Lexer H) (cs : List Char) : l.run (cs.map .char) = l.text cs := by
  rw [run, List.foldl_map]
  rfl

theorem placed_append (l : Lexer H) (t t' : List (Sym H)) :
    l.placed (t ++ t') = (l.placed t && (l.run t).placed t') := by
  induction t generalizing l with
  | nil => rfl
  | cons s t ih =>
    cases s with
    | char c => exact ih (l.step c)
    | hole p =>
      change (l.isOpen && (l.hole p).placed (t ++ t')) = _
      rw [ih, ← Bool.and_assoc]
      rfl

/-- A text has no places. -/
theorem placed_chars (l : Lexer H) (cs : List Char) : l.placed (cs.map .char) = true := by
  induction cs generalizing l with
  | nil => rfl
  | cons c cs ih => exact ih (l.step c)

/-- Letters in single quotes. -/
theorem text_single (ps : List (Letter H)) {cs : List Char} (h : '\'' ∉ cs) :
    (l.inWord .single ps).text cs = l.inWord .single (ps ++ cs.map .quoted) := by
  induction cs generalizing ps with
  | nil =>
    rw [List.map_nil, List.append_nil]
    rfl
  | cons c cs ih =>
    rw [List.mem_cons, not_or] at h
    have hstep : (l.inWord .single ps).step c = l.inWord .single (ps ++ [.quoted c]) :=
      if_neg (Ne.symm h.1)
    change ((l.inWord .single ps).step c).text cs = _
    rw [hstep, ih _ h.2, List.append_assoc]
    rfl

/-- Letters in double quotes that mean nothing there. -/
theorem text_soft (hsoft : l.soft = true) (ps : List (Letter H)) {cs : List Char}
    (h : ∀ c ∈ cs, ['"', '\\', '$', '\x60', '}'].contains c = false) :
    (l.inWord .normal ps).text cs = l.inWord .normal (ps ++ cs.map .soft) := by
  induction cs generalizing ps with
  | nil =>
    rw [List.map_nil, List.append_nil]
    rfl
  | cons c cs ih =>
    rw [List.forall_mem_cons] at h
    have hstep : (l.inWord .normal ps).step c = l.inWord .normal (ps ++ [.soft c]) := by
      have hsoft' : (l.inWord .normal ps).soft = true := hsoft
      have hne : ∀ d ∈ ['"', '\\', '$', '\x60', '}'], c ≠ d := by
        rintro d hd rfl
        rw [List.contains_iff_mem.mpr hd] at h
        cases h.1
      change (l.inWord .normal ps).stepNormal c = _
      rw [stepNormal, if_pos hsoft', stepSoft, if_neg (hne _ (by simp)), if_neg (hne _ (by simp)),
        if_neg (hne _ (by simp)), if_neg (hne _ (by simp)), if_neg, put_inWord]
      rw [Bool.and_eq_true, decide_eq_true_eq]
      exact fun hand => hne _ (by simp) hand.1
    change ((l.inWord .normal ps).step c).text cs = _
    rw [hstep, ih _ h.2, List.append_assoc]
    rfl

end Lexer

theorem fill_append (t t' : List (Sym H)) : fill value (t ++ t') = fill value t ++ fill value t' :=
  List.flatMap_append

theorem fill_chars (cs : List Char) : fill value (cs.map .char) = cs := by
  rw [fill, List.flatMap_map]
  exact List.flatMap_singleton' cs

theorem fill_hole (h : H) : fill value [.hole h] = quote (value h) := List.append_nil _

/-! ## Tokens without their values -/

/-- A letter that may mean something to the shell. -/
def Letter.bare : Letter H → List (Letter G)
  | plain c => [plain c]
  | soft c => [soft c]
  | _ => []

/-- A token without the letters that stand for themselves. -/
def Tok.bare : Tok H → Tok G
  | word q letters => word q (letters.flatMap Letter.bare)
  | number letters => number (letters.flatMap Letter.bare)
  | op letters => op letters
  | enter q letters => enter q (letters.flatMap Letter.bare)
  | leave => leave
  | lost c => lost c

theorem Letter.bare_subst (p : Letter H) :
    ((p.subst (inQuotes value) : List (Letter G)).flatMap Letter.bare : List (Letter G)) = p.bare := by
  cases p with
  | plain | soft | quoted => rfl
  | hole h =>
    rw [Letter.subst, inQuotes, List.flatMap_map]
    exact List.flatMap_eq_nil_iff.mpr fun c _ => rfl

/-- **Without their values the tokens are those of the script without values.** -/
theorem Tok.bare_subst (t : Tok H) : ((t.subst (inQuotes value) : Tok G).bare : Tok G) = t.bare := by
  have hparts : ∀ ps : List (Letter H), ((ps.flatMap (Letter.subst (inQuotes value)) : List (Letter G)).flatMap
      Letter.bare : List (Letter G)) = ps.flatMap Letter.bare := by
    intro ps
    rw [List.flatMap_assoc]
    exact List.flatMap_congr fun p _ => Letter.bare_subst p
  cases t with
  | word q ps => exact congrArg _ (hparts ps)
  | number ps => exact congrArg _ (hparts ps)
  | enter q ps => exact congrArg _ (hparts ps)
  | op | leave | lost => rfl

end Places

end Shell
