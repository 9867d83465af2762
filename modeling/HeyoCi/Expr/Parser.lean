import HeyoCi.Expr.Tokens

/-!
# The value of an expression

Recursive descent, evaluating as it goes. Each level is a parser over the one below, and all of them
over `parseOr`, which is called again inside parentheses and for arguments.

* `parseAtom`, `parsePrimary`, `parseCmp`, `parseNot`, `parseAnd`, `parseOrBody`: the levels;
* `parseOr`, **`parseOr_eq`**: the parser that calls itself, which is its own body;
* `eval`, **`eval_congr`**: the value of a text, which depends on the names in it only.
-/

namespace HeyoCi.Expr

open Descent

abbrev Parse (F α : Type) := Parser (Tok F) ExprError α

section Levels

variable {F : Type} (fl : Floats F) (ctx : Json.Obj) (parseOr : Parse F Json)

/-- A value before the parenthesis that closes it. -/
def closed {α : Type} (v : α) : Parse F α
  | .rParen :: ts => .ok (v, ts)
  | _ => .error .unclosedParen

def isComma : Tok F → Bool
  | .comma => true
  | _ => false

/-- The arguments of a call, behind its opening parenthesis. -/
def arguments : Parse F (List Json)
  | .rParen :: ts => .ok ([], ts)
  | ts => andThen (sepBy isComma parseOr) (fun (arg, args) => closed (arg :: args)) ts

/-- A name that is no call: a keyword, or a scope. -/
def named : String → Json
  | "true" => .bool true
  | "false" => .bool false
  | "null" => .null
  | name => lookup ctx [name]

def parseAtom : Parse F Json
  | .lParen :: ts => andThen parseOr closed ts
  | .str s :: ts => .ok (.str s, ts)
  | .num n :: ts => .ok (number fl n, ts)
  | .ident name :: .lParen :: ts =>
    andThen (arguments parseOr) (fun args ts => (call fl ctx name args).map (·, ts)) ts
  | .ident name :: ts => .ok (named ctx name, ts)
  | [] => .error (.unexpected "None")
  | other :: _ => .error (.unexpected ("Some(" ++ other.debug fl ++ ")"))

/-- The properties behind those that were read. -/
def trailing (segs : List String) : Parse F (List String)
  | .dot :: .ident seg :: ts => trailing (segs ++ [seg]) ts
  | .dot :: .num n :: ts => trailing (segs ++ [toDisplay fl (number fl n)]) ts
  | .dot :: _ => .error (.trailingDot (".".intercalate segs))
  | ts => .ok (segs, ts)

def parsePrimary : Parse F Json :=
  andThen (parseAtom fl ctx parseOr) fun base =>
    andThen (trailing fl []) fun segs ts => .ok (walk base segs, ts)

/-- An order of floats, on values that are numbers. -/
def ordered (rel : F → F → Bool) (left right : Json) : Bool :=
  match asNumber fl left, asNumber fl right with
  | some a, some b => rel a b
  | _, _ => false

/-- What a comparison operator says about two values. -/
def comparison : Tok F → Option (Json → Json → Bool)
  | .eqEq => some (looseEq fl)
  | .notEq => some fun left right => !looseEq fl left right
  | .gt => some (ordered fl fun a b => fl.lt b a)
  | .ge => some (ordered fl fun a b => fl.le b a)
  | .lt => some (ordered fl fl.lt)
  | .le => some (ordered fl fl.le)
  | _ => none

/-- The operator behind a value, if there is one, and the other value. -/
def compared (left : Json) : Parse F Json
  | [] => .ok (left, [])
  | t :: ts => match comparison fl t with
    | some op => andThen (parsePrimary fl ctx parseOr) (fun right ts =>
        .ok (.bool (op left right), ts)) ts
    | none => .ok (left, t :: ts)

def parseCmp : Parse F Json := andThen (parsePrimary fl ctx parseOr) (compared fl ctx parseOr)

def parseNot : Parse F Json
  | .not :: ts => (parseNot ts).map fun (v, ts) => (.bool (!truthy fl v), ts)
  | ts => parseCmp fl ctx parseOr ts

def isAnd : Tok F → Bool
  | .and => true
  | _ => false

def isOr : Tok F → Bool
  | .or => true
  | _ => false

/-- The operands of an operator, taken together from the left. -/
def chain (isOp : Tok F → Bool) (operand : Parse F Json) (join : Json → Json → Json) :
    Parse F Json :=
  andThen (sepBy isOp operand) fun (left, rights) ts => .ok (rights.foldl join left, ts)

/-- `&&` yields the first operand that is not true, else the last one. -/
def parseAnd : Parse F Json := chain isAnd (parseNot fl ctx parseOr) fun left right =>
  if truthy fl left then right else left

/-- `||` yields the first operand that is true, else the last one. -/
def parseOrBody : Parse F Json := chain isOr (parseAnd fl ctx parseOr) fun left right =>
  if truthy fl left then left else right

end Levels

/-- `parse_or`. -/
def parseOr {F : Type} (fl : Floats F) (ctx : Json.Obj) : Parse F Json := fix (parseOrBody fl ctx)

/-- A value behind which there is no token. -/
def complete {F : Type} (fl : Floats F) : Json × List (Tok F) → Except ExprError Json
  | (v, []) => .ok v
  | (_, t :: _) => .error (.trailing (t.debug fl))

/-- `Context::eval`. -/
def eval {F : Type} (fl : Floats F) (ctx : Json.Obj) (expr : List Char) : Except ExprError Json :=
  (tokenize fl expr).bind fun tokens => (parseOr fl ctx tokens).bind (complete fl)

/-! ## What every level leaves -/

section Keeps

variable {F : Type} {fl : Floats F} {ctx : Json.Obj} {p : Parse F Json}

theorem keeps_closed {α : Type} (v : α) : Keeps (closed v : Parse F α) := by
  intro ts a rest h
  unfold closed at h
  split at h
  · cases h
    exact List.suffix_cons _ _
  · cases h

theorem keeps_arguments (hp : Keeps p) : Keeps (arguments p) := by
  intro ts a rest h
  unfold arguments at h
  split at h
  · cases h
    exact List.suffix_cons _ _
  · exact keeps_andThen (keeps_sepBy hp) (fun args => keeps_closed _) _ _ _ h

theorem keeps_call (name : String) (args : List Json) :
    Keeps fun ts : List (Tok F) => (call fl ctx name args).map (·, ts) := by
  intro ts a rest h
  obtain ⟨v, -, heq⟩ := map_ok.mp h
  cases heq
  exact List.suffix_rfl

theorem keeps_parseAtom (hp : Keeps p) : Keeps (parseAtom fl ctx p) := by
  intro ts a rest h
  unfold parseAtom at h
  split at h
  · have hrest := keeps_andThen hp (fun v => keeps_closed v) _ _ _ h
    exact hrest.trans (List.suffix_cons _ _)
  · cases h
    exact List.suffix_cons _ _
  · cases h
    exact List.suffix_cons _ _
  · have hrest := keeps_andThen (keeps_arguments hp) (fun args => keeps_call _ args) _ _ _ h
    exact (hrest.trans (List.suffix_cons _ _)).trans (List.suffix_cons _ _)
  · cases h
    exact List.suffix_cons _ _
  · cases h
  · cases h

theorem keeps_trailing (segs : List String) : Keeps (trailing fl segs) := by
  intro ts a rest h
  fun_induction trailing fl segs ts with
  | case1 segs seg ts ih => exact ((ih h).trans (List.suffix_cons _ _)).trans (List.suffix_cons _ _)
  | case2 segs n ts ih => exact ((ih h).trans (List.suffix_cons _ _)).trans (List.suffix_cons _ _)
  | case3 => cases h
  | case4 =>
    cases h
    exact List.suffix_rfl

theorem keeps_parsePrimary (hp : Keeps p) : Keeps (parsePrimary fl ctx p) :=
  keeps_andThen (keeps_parseAtom hp) fun _ => keeps_andThen (keeps_trailing _) fun _ => keeps_ok _

theorem keeps_parseCmp (hp : Keeps p) : Keeps (parseCmp fl ctx p) := by
  refine keeps_andThen (keeps_parsePrimary hp) fun left ts a rest h => ?_
  unfold compared at h
  split at h
  · cases h
    exact List.suffix_rfl
  · split at h
    · have hrest := keeps_andThen (keeps_parsePrimary hp) (fun _ => keeps_ok _) _ _ _ h
      exact hrest.trans (List.suffix_cons _ _)
    · cases h
      exact List.suffix_rfl

theorem keeps_parseNot (hp : Keeps p) : Keeps (parseNot fl ctx p) := by
  intro ts a rest h
  fun_induction parseNot fl ctx p ts generalizing a rest with
  | case1 ts ih =>
    obtain ⟨r, hr, heq⟩ := map_ok.mp h
    cases heq
    exact (ih _ _ hr).trans (List.suffix_cons _ _)
  | case2 ts => exact keeps_parseCmp hp _ _ _ h

theorem keeps_chain {isOp : Tok F → Bool} {join : Json → Json → Json} (hp : Keeps p) :
    Keeps (chain isOp p join) := keeps_andThen (keeps_sepBy hp) fun _ => keeps_ok _

end Keeps

/-! ## What every level depends on -/

/-- A name means the same in two contexts, as a scope and as a function. -/
def SameName {F : Type} (fl : Floats F) (ctx ctx' : Json.Obj) (name : String) : Prop :=
  named ctx name = named ctx' name ∧ ∀ args, call fl ctx name args = call fl ctx' name args

/-- On texts with one property, a level sees names that mean the same and calls the parser on texts
with another one. -/
structure Levels {F : Type} (fl : Floats F) (ctx ctx' : Json.Obj)
    (P Q : List (Tok F) → Prop) : Prop where
  inner : Hereditary P
  outer : Hereditary Q
  tail : ∀ t ts, Q (t :: ts) → P ts
  name : ∀ name ts, Q (.ident name :: ts) → SameName fl ctx ctx' name

section SameOn

variable {F : Type} {fl : Floats F} {ctx ctx' : Json.Obj} {P Q : List (Tok F) → Prop}
  {p q : Parse F Json}

theorem agree_arguments (hP : Hereditary P) (hp : Keeps p) (h : SameOn P p q) :
    SameOn P (arguments p) (arguments q) := by
  intro ts hts
  unfold arguments
  split
  · rfl
  · exact agree_andThen hP (keeps_sepBy hp) (agree_sepBy hP hp h) (fun _ _ _ => rfl) _ hts

theorem agree_chain {isOp : Tok F → Bool} {join : Json → Json → Json} (hQ : Hereditary Q)
    (hp : Keeps p) (h : SameOn Q p q) : SameOn Q (chain isOp p join) (chain isOp q join) :=
  agree_andThen hQ (keeps_sepBy hp) (agree_sepBy hQ hp h) fun _ _ _ => rfl

variable (hl : Levels fl ctx ctx' P Q) (hp : Keeps p) (h : SameOn P p q)

include hl hp h

theorem agree_parseAtom : SameOn Q (parseAtom fl ctx p) (parseAtom fl ctx' q) := by
  intro ts hts
  unfold parseAtom
  split
  · exact agree_andThen hl.inner hp h (fun _ _ _ => rfl) _ (hl.tail _ _ hts)
  · rfl
  · rfl
  · apply agree_andThen hl.inner (keeps_arguments hp) (agree_arguments hl.inner hp h)
    · intro args ts _
      rw [(hl.name _ _ hts).2 args]
    · exact hl.inner.tail (hl.tail _ _ hts)
  · rw [(hl.name _ _ hts).1]
  · rfl
  · rfl

theorem agree_parsePrimary : SameOn Q (parsePrimary fl ctx p) (parsePrimary fl ctx' q) :=
  agree_andThen hl.outer (keeps_parseAtom hp) (agree_parseAtom hl hp h) fun _ _ _ => rfl

theorem agree_parseCmp : SameOn Q (parseCmp fl ctx p) (parseCmp fl ctx' q) := by
  have hprimary := agree_parsePrimary hl hp h
  refine agree_andThen hl.outer (keeps_parsePrimary hp) hprimary fun left ts hts => ?_
  unfold compared
  split
  · rfl
  · split
    · exact agree_andThen hl.outer (keeps_parsePrimary hp) hprimary (fun _ _ _ => rfl) _
        (hl.outer.tail hts)
    · rfl

theorem agree_parseNot : SameOn Q (parseNot fl ctx p) (parseNot fl ctx' q) := by
  intro ts hts
  fun_induction parseNot fl ctx p ts with
  | case1 ts ih => rw [parseNot, ih (hl.outer.tail hts)]
  | case2 ts hno =>
    rw [parseNot]
    · exact agree_parseCmp hl hp h ts hts
    · exact hno

theorem agree_parseOrBody : SameOn Q (parseOrBody fl ctx p) (parseOrBody fl ctx' q) := by
  apply agree_chain hl.outer (keeps_chain (keeps_parseNot hp))
  apply agree_chain hl.outer (keeps_parseNot hp)
  exact agree_parseNot hl hp h

end SameOn

section Eval

variable {F : Type} {fl : Floats F} {ctx ctx' : Json.Obj}

theorem sameName_rfl (name : String) : SameName fl ctx ctx name := ⟨rfl, fun _ => rfl⟩

theorem descends_parseOr : Descends (parseOrBody fl ctx) where
  keeps _ hp := keeps_chain (keeps_chain (keeps_parseNot hp))
  agree p q n hp h := by
    apply agree_parseOrBody _ hp h
    exact ⟨hereditary_below n, hereditary_below (n + 1), fun _ _ => Nat.lt_of_succ_lt_succ,
      fun name _ _ => sameName_rfl name⟩

/-- **`parseOr` calls itself as the source does**: no depth of an expression is too much for it. -/
theorem parseOr_eq : parseOr fl ctx = parseOrBody fl ctx (parseOr fl ctx) := fix_eq descends_parseOr

/-- All names among some tokens mean the same in two contexts. -/
def SameNames (fl : Floats F) (ctx ctx' : Json.Obj) (ts : List (Tok F)) : Prop :=
  ∀ name, .ident name ∈ ts → SameName fl ctx ctx' name

theorem hereditary_sameNames : Hereditary (SameNames fl ctx ctx') := by
  intro ts us h hts name hmem
  exact hts name (h.mem hmem)

theorem agree_parseOr : SameOn (SameNames fl ctx ctx') (parseOr fl ctx) (parseOr fl ctx') := by
  apply agree_fix descends_parseOr
  intro p q hp h
  apply agree_parseOrBody _ hp h
  exact ⟨hereditary_sameNames, hereditary_sameNames, fun t ts hts => hereditary_sameNames.tail hts,
    fun name _ hts => hts name List.mem_cons_self⟩

/-- **An expression has the same value where its names mean the same.** -/
theorem eval_congr {expr : List Char} (hnames : ∀ ts, tokenize fl expr = .ok ts →
    SameNames fl ctx ctx' ts) : eval fl ctx expr = eval fl ctx' expr := by
  unfold eval
  cases ht : tokenize fl expr with
  | error e => simp only [Except.bind]
  | ok ts => exact congrArg (·.bind (complete fl)) (agree_parseOr ts (hnames ts ht))

end Eval

end HeyoCi.Expr
