import HeyoCi.Expr.Parser
import HeyoCi.Lib.Operators

/-!
# The grammar of expressions

* `Op`, `Seg`, `Lit`, `Ast`: the trees of expressions;
* `Ast.value`: what a tree means in a context;
* `Ast.bare`, `Ast.tokens`: its tokens, with parentheses where an operand binds weaker than its
  operator;
* `ReadAt`: tokens that the parser of a level reads; `ReadAt.lower`, `ReadAt.paren`: the levels below;
* **`Ast.read`**: every tree is read as what it means; **`parseOr_tokens`**.
-/

namespace HeyoCi.Expr

open Descent

/-! ## Trees -/

/-- A comparison. -/
inductive Op where
  | eq
  | ne
  | gt
  | ge
  | lt
  | le
  deriving Repr, DecidableEq

/-- A property: a member by its name, or an item by its index. -/
inductive Seg (F : Type) where
  | name (s : String)
  | index (x : F)

inductive Lit (F : Type) where
  | null
  | bool (b : Bool)
  | str (s : String)
  | nat (n : Nat)
  | num (x : F)

inductive Ast (F : Type) where
  | or (left right : Ast F)
  | and (left right : Ast F)
  | not (e : Ast F)
  | cmp (op : Op) (left right : Ast F)
  | paren (e : Ast F)
  | path (scope : String) (segs : List (Seg F))
  | lit (l : Lit F)
  | call (name : String) (args : List (Ast F))

section Meaning

variable {F : Type} (fl : Floats F) (ctx : Json.Obj)

/-- `||` of two values: the first that is true, else the second. -/
def either (left right : Json) : Json := if truthy fl left then left else right

/-- `&&` of two values: the first that is not true, else the second. -/
def both (left right : Json) : Json := if truthy fl left then right else left

def Op.holds : Op → Json → Json → Bool
  | eq => looseEq fl
  | ne => fun left right => !looseEq fl left right
  | gt => ordered fl fun a b => fl.lt b a
  | ge => ordered fl fun a b => fl.le b a
  | lt => ordered fl fl.lt
  | le => ordered fl fl.le

/-- The key that a property is looked up by. -/
def Seg.key : Seg F → String
  | name s => s
  | index x => toDisplay fl (number fl x)

def Lit.value : Lit F → Json
  | null => .null
  | bool b => .bool b
  | str s => .str s
  | nat n => .num n 0
  | num x => number fl x

mutual

/-- What a tree means: operands from left to right, and all of them. -/
def Ast.value : Ast F → Except ExprError Json
  | .or left right => left.value.bind fun a => right.value.map (either fl a)
  | .and left right => left.value.bind fun a => right.value.map (both fl a)
  | .not e => e.value.map fun v => .bool (!truthy fl v)
  | .cmp op left right => left.value.bind fun a => right.value.map fun b => .bool (op.holds fl a b)
  | .paren e => e.value
  | .path scope segs => .ok (lookup ctx (scope :: segs.map (Seg.key fl)))
  | .lit l => .ok (l.value fl)
  | .call name args => (Ast.values args).bind (Expr.call fl ctx name)

def Ast.values : List (Ast F) → Except ExprError (List Json)
  | [] => .ok []
  | e :: es => e.value.bind fun v => (Ast.values es).map (v :: ·)

end

end Meaning

/-! ## Their tokens -/

/-- How tight the outermost operator of a tree binds. -/
def Ast.level {F : Type} : Ast F → Nat
  | .or .. => 0
  | .and .. => 1
  | .not _ => 2
  | .cmp .. => 3
  | _ => 4

section Tokens

variable {F : Type} (fl : Floats F)

def Op.tok : Op → Tok F
  | eq => .eqEq
  | ne => .notEq
  | gt => .gt
  | ge => .ge
  | lt => .lt
  | le => .le

def Seg.tok : Seg F → Tok F
  | name s => .ident s
  | index x => .num x

/-- A whole number is written with its digits. -/
def Lit.tokens : Lit F → List (Tok F)
  | null => [.ident "null"]
  | bool b => [.ident (toString b)]
  | str s => [.str s]
  | nat n => (fl.parse (toString n)).toList.map .num
  | num x => [.num x]

/-- Tokens of one level where those of another one are needed. -/
def within (own level : Nat) (ts : List (Tok F)) : List (Tok F) :=
  if own < level then .lParen :: (ts ++ [.rParen]) else ts

mutual

/-- The tokens of a tree that has no operator around it. -/
def Ast.bare : Ast F → List (Tok F)
  | .or left right => left.bare ++ .or :: right.bare
  | .and left right => within left.level 1 left.bare ++ .and :: within right.level 1 right.bare
  | .not e => .not :: within e.level 2 e.bare
  | .cmp op left right => within left.level 4 left.bare ++ op.tok :: within right.level 4 right.bare
  | .paren e => .lParen :: (e.bare ++ [.rParen])
  | .path scope segs => .ident scope :: segs.flatMap fun s => [.dot, s.tok]
  | .lit l => l.tokens fl
  | .call name args => .ident name :: .lParen :: (Ast.bares args ++ [.rParen])

def Ast.bares : List (Ast F) → List (Tok F)
  | [] => []
  | [e] => e.bare
  | e :: e' :: es => e.bare ++ .comma :: Ast.bares (e' :: es)

end

/-- The tokens of a tree in a place that needs a level. -/
def Ast.tokens (level : Nat) (e : Ast F) : List (Tok F) := within e.level level (e.bare fl)

def keywords : List String := ["true", "false", "null"]

/-- A whole number is read as itself. -/
def Lit.Readable : Lit F → Prop
  | nat n => ∃ x, fl.parse (toString n) = some x ∧ number fl x = .num n 0
  | _ => True

mutual

/-- No scope is a keyword, and whole numbers are read as themselves. -/
def Ast.Readable : Ast F → Prop
  | .or left right | .and left right | .cmp _ left right => left.Readable ∧ right.Readable
  | .not e | .paren e => e.Readable
  | .path scope _ => scope ∉ keywords
  | .lit l => l.Readable fl
  | .call _ args => Ast.AllReadable args

def Ast.AllReadable : List (Ast F) → Prop
  | [] => True
  | e :: es => e.Readable ∧ Ast.AllReadable es

end

end Tokens

/-! ## What may be behind a value -/

section Behind

variable {F : Type} {fl : Floats F} {ctx : Json.Obj} {level : Nat} {rest : List (Tok F)}

/-- No parser of a level goes on at a token. -/
def Tok.Ends (level : Nat) : Tok F → Prop
  | .dot | .lParen => False
  | .eqEq | .notEq | .gt | .ge | .lt | .le => 4 ≤ level
  | .and => 2 ≤ level
  | .or => 1 ≤ level
  | _ => True

/-- The value of a level ends before some tokens. -/
def Behind (level : Nat) (rest : List (Tok F)) : Prop := ∀ t ∈ rest.head?, t.Ends level

theorem Tok.Ends.mono {t : Tok F} {level' : Nat} (h : t.Ends level) (hle : level ≤ level') :
    t.Ends level' := by
  cases t <;> first | exact h | exact Nat.le_trans h hle

theorem Behind.mono {level' : Nat} (h : Behind level rest) (hle : level ≤ level') :
    Behind level' rest := fun t ht => (h t ht).mono hle

theorem Behind.not_isAnd (h : Behind 1 rest) : ∀ t ∈ rest.head?, isAnd t = false := by
  intro t ht
  have hends := h t ht
  cases t <;> first | rfl | exact absurd hends (Nat.not_succ_le_self 1)

theorem Behind.not_isOr (h : Behind 0 rest) : ∀ t ∈ rest.head?, isOr t = false := by
  intro t ht
  have hends := h t ht
  cases t <;> first | rfl | exact absurd hends (Nat.not_succ_le_self 0)

theorem behind_isAnd {t : Tok F} (ht : isAnd t = true) (ts : List (Tok F)) : Behind 2 (t :: ts) := by
  rintro _ ⟨⟩
  cases t <;> first | exact Nat.le_refl 2 | cases ht

theorem behind_isOr {t : Tok F} (ht : isOr t = true) (ts : List (Tok F)) : Behind 1 (t :: ts) := by
  rintro _ ⟨⟩
  cases t <;> first | exact Nat.le_refl 1 | cases ht

theorem behind_rParen (ts : List (Tok F)) : Behind level (.rParen :: ts) := by
  rintro _ ⟨⟩
  trivial

theorem behind_comma (ts : List (Tok F)) : Behind level (.comma :: ts) := by
  rintro _ ⟨⟩
  trivial

theorem behind_nil : Behind level ([] : List (Tok F)) := fun _ h => nomatch h

theorem behind_op (op : Op) (ts : List (Tok F)) : Behind 4 (op.tok :: ts) := by
  rintro _ ⟨⟩
  cases op <;> exact Nat.le_refl 4

theorem comparison_tok (op : Op) : comparison fl op.tok = some (op.holds fl) := by
  cases op <;> rfl

/-- No comparison goes on. -/
theorem compared_behind {p : Parse F Json} (v : Json) (h : Behind 3 rest) :
    compared fl ctx p v rest = .ok (v, rest) := by
  cases rest with
  | nil => rfl
  | cons t ts =>
    have hends := h t rfl
    cases t <;> first | rfl | exact absurd hends (Nat.not_succ_le_self 3)

/-- No property is behind a value. -/
theorem trailing_behind (segs : List String) (h : Behind 4 rest) :
    trailing fl segs rest = .ok (segs, rest) := by
  cases rest with
  | nil => rfl
  | cons t ts =>
    have hends := h t rfl
    cases t <;> first | rfl | exact absurd hends id

theorem trailing_seg (names : List String) (s : Seg F) (ts : List (Tok F)) :
    trailing fl names (.dot :: s.tok :: ts) = trailing fl (names ++ [s.key fl]) ts := by
  cases s <;> rfl

/-- Properties are read one after the other. -/
theorem trailing_segs (names : List String) (segs : List (Seg F)) (h : Behind 4 rest) :
    trailing fl names ((segs.flatMap fun s => [.dot, s.tok]) ++ rest) =
      .ok (names ++ segs.map (Seg.key fl), rest) := by
  induction segs generalizing names with
  | nil =>
    rw [List.map_nil, List.append_nil]
    exact trailing_behind names h
  | cons s segs ih =>
    rw [List.flatMap_cons, List.append_assoc, List.cons_append, List.cons_append, List.nil_append,
      trailing_seg, ih, List.append_assoc]
    rfl

end Behind

/-! ## The levels of the parser -/

section Levels

variable {F : Type} (fl : Floats F) (ctx : Json.Obj)

/-- A token that a value of a level may begin with. -/
def Tok.Starts (level : Nat) : Tok F → Prop
  | .rParen => False
  | .not => level ≤ 2
  | _ => True

/-- The parser of a level reads some tokens with a result, in front of whatever ends the level. The
operands of `||` and `&&` are also read in front of such an operator. -/
def ReadBy : Nat → List (Tok F) → Except ExprError Json → Prop
  | 0 => Linked isOr (parseAnd fl ctx (parseOr fl ctx)) (either fl) (Behind 1)
  | 1 => Linked isAnd (parseNot fl ctx (parseOr fl ctx)) (both fl) (Behind 2)
  | 2 => Reads (parseNot fl ctx (parseOr fl ctx)) (Behind 2)
  | 3 => Reads (parseCmp fl ctx (parseOr fl ctx)) (Behind 3)
  | _ => Reads (parsePrimary fl ctx (parseOr fl ctx)) (Behind 4)

structure ReadAt (level : Nat) (ts : List (Tok F)) (r : Except ExprError Json) : Prop where
  starts : ∃ t us, ts = t :: us ∧ t.Starts level
  read : ReadBy fl ctx level ts r

variable {fl ctx} {level : Nat} {ts us rest : List (Tok F)} {r s : Except ExprError Json}

instance : Std.Associative (either fl) where
  assoc a b c := by
    unfold either
    split_ifs <;> rfl

instance : Std.Associative (both fl) where
  assoc a b c := by
    unfold both
    split_ifs <;> rfl

theorem keeps_parseOr : Keeps (parseOr fl ctx) := keeps_fix descends_parseOr

theorem parseAnd_eq (p : Parse F Json) :
    parseAnd fl ctx p = foldBy isAnd (parseNot fl ctx p) (both fl) := rfl

theorem parseOr_foldBy :
    parseOr fl ctx = foldBy isOr (parseAnd fl ctx (parseOr fl ctx)) (either fl) := parseOr_eq

theorem reads_parseAnd (h : ReadAt fl ctx 1 ts r) :
    Reads (parseAnd fl ctx (parseOr fl ctx)) (Behind 1) ts r := by
  rw [parseAnd_eq]
  exact h.read.ends.mono fun rest hrest => ⟨hrest.mono (by omega), hrest.not_isAnd⟩

/-- A value of the lowest level is what `parseOr` reads. -/
theorem reads_parseOr (h : ReadAt fl ctx 0 ts r) : Reads (parseOr fl ctx) (Behind 0) ts r := by
  rw [parseOr_foldBy]
  exact h.read.ends.mono fun rest hrest => ⟨hrest.mono (by omega), hrest.not_isOr⟩

theorem reads_parseCmp (h : ReadAt fl ctx 4 ts r) :
    Reads (parseCmp fl ctx (parseOr fl ctx)) (Behind 3) ts r := by
  intro rest hrest
  have hread : Reads (parsePrimary fl ctx (parseOr fl ctx)) (Behind 4) ts r := h.read
  rw [parseCmp, hread.andThen_eq (hrest.mono (by omega))]
  cases r with
  | error e => rfl
  | ok v => exact compared_behind v hrest

theorem reads_parseNot (h : ReadAt fl ctx 3 ts r) :
    Reads (parseNot fl ctx (parseOr fl ctx)) (Behind 2) ts r := by
  intro rest hrest
  have hread : Reads (parseCmp fl ctx (parseOr fl ctx)) (Behind 3) ts r := h.read
  obtain ⟨t, us, rfl, ht⟩ := h.starts
  rw [parseNot]
  · exact hread rest (hrest.mono (by omega))
  · rintro _ heq
    cases heq
    exact absurd ht (by simp [Tok.Starts])

theorem Tok.Starts.mono {t : Tok F} {level' : Nat} (h : t.Starts level') (hle : level ≤ level') :
    t.Starts level := by
  cases t <;> simp only [Tok.Starts] at h ⊢
  omega

/-- What the parser of a level reads, that of the level below reads. -/
theorem ReadAt.lower (h : ReadAt fl ctx (level + 1) ts r) : ReadAt fl ctx level ts r where
  starts := by
    obtain ⟨t, us, rfl, ht⟩ := h.starts
    exact ⟨t, us, rfl, ht.mono (Nat.le_succ level)⟩
  read := match level, h with
    | 0, h => linked_of_reads (keeps_chain (keeps_parseNot keeps_parseOr)) (reads_parseAnd h)
        fun t us ht => behind_isOr ht us
    | 1, h => linked_of_reads (keeps_parseNot keeps_parseOr) h.read fun t us ht => behind_isAnd ht us
    | 2, h => reads_parseNot h
    | 3, h => reads_parseCmp h
    | _ + 4, h => h.read

theorem ReadAt.lower_le {level' : Nat} (h : ReadAt fl ctx level' ts r) (hle : level ≤ level') :
    ReadAt fl ctx level ts r := by
  induction hle with
  | refl => exact h
  | step _ ih => exact ih h.lower

/-! ## Primaries -/

/-- A value without properties behind it. -/
theorem primary_of_atom (h : parseAtom fl ctx (parseOr fl ctx) (ts ++ rest) = r.map (·, rest))
    (hrest : Behind 4 rest) : parsePrimary fl ctx (parseOr fl ctx) (ts ++ rest) = r.map (·, rest) := by
  rw [parsePrimary, andThen, h]
  cases r with
  | error e => rfl
  | ok v =>
    change (andThen (trailing fl []) fun segs ts => .ok (walk v segs, ts)) rest = _
    rw [andThen, trailing_behind [] hrest]
    rfl

/-- Parentheses around a value of the lowest level make it one of the highest. -/
theorem ReadAt.paren (h : ReadAt fl ctx 0 ts r) :
    ReadAt fl ctx 4 (.lParen :: (ts ++ [.rParen])) r where
  starts := ⟨_, _, rfl, trivial⟩
  read rest hrest := by
    refine primary_of_atom ?_ hrest
    rw [List.cons_append, List.append_assoc, List.singleton_append, parseAtom,
      (reads_parseOr h).andThen_eq (behind_rParen rest)]
    cases r <;> rfl

theorem ReadAt.within {own : Nat} (h : ReadAt fl ctx own ts r) (hlevel : level ≤ 4) :
    ReadAt fl ctx level (within own level ts) r := by
  unfold Expr.within
  split_ifs with hlt
  · exact (h.lower_le (Nat.zero_le own)).paren.lower_le hlevel
  · exact h.lower_le (Nat.le_of_not_lt hlt)

theorem parseAtom_ident {name : String} (h : ∀ t ∈ ts.head?, t ≠ .lParen) :
    parseAtom fl ctx (parseOr fl ctx) (.ident name :: ts) = .ok (named ctx name, ts) := by
  cases ts with
  | nil => rfl
  | cons t ts =>
    have ht := h t rfl
    cases t <;> first | rfl | exact absurd rfl ht

theorem Behind.ne_lParen (h : Behind level rest) : ∀ t ∈ rest.head?, t ≠ .lParen := by
  rintro t ht rfl
  exact h _ ht

/-- An identifier that is no call. -/
theorem readAt_ident (name : String) :
    ReadAt fl ctx 4 [.ident name] (.ok (named ctx name)) where
  starts := ⟨_, _, rfl, trivial⟩
  read _ hrest := primary_of_atom (parseAtom_ident hrest.ne_lParen) hrest

theorem walk_null (segs : List String) : walk .null segs = .null := by
  induction segs with
  | nil => rfl
  | cons seg segs ih => exact ih

theorem lookup_cons (ctx : Json.Obj) (scope : String) (segs : List String) :
    lookup ctx (scope :: segs) = walk (lookup ctx [scope]) segs := by
  simp only [lookup]
  cases Json.Obj.get ctx scope with
  | none => exact (walk_null segs).symm
  | some root => rfl

theorem named_of_scope {scope : String} (h : scope ∉ keywords) :
    named ctx scope = lookup ctx [scope] := by
  unfold named
  split
  · exact absurd (by decide) h
  · exact absurd (by decide) h
  · exact absurd (by decide) h
  · rfl

/-- A path is read as its lookup. -/
theorem readAt_path {scope : String} (h : scope ∉ keywords) (segs : List (Seg F)) :
    ReadAt fl ctx 4 (.ident scope :: segs.flatMap fun s => [.dot, s.tok])
      (.ok (lookup ctx (scope :: segs.map (Seg.key fl)))) where
  starts := ⟨_, _, rfl, trivial⟩
  read rest hrest := by
    have hhead : ∀ t ∈ ((segs.flatMap fun s => [.dot, s.tok]) ++ rest).head?, t ≠ .lParen := by
      cases segs with
      | nil => exact hrest.ne_lParen
      | cons s segs =>
        rintro _ ⟨⟩ heq
        cases heq
    rw [List.cons_append, parsePrimary, andThen, parseAtom_ident hhead, named_of_scope h,
      lookup_cons ctx scope (segs.map (Seg.key fl))]
    change (andThen (trailing fl []) fun segs ts => .ok (walk _ segs, ts)) _ = _
    rw [andThen, trailing_segs [] segs hrest]
    rfl

theorem readAt_lit {l : Lit F} (h : l.Readable fl) :
    ReadAt fl ctx 4 (l.tokens fl) (.ok (l.value fl)) := by
  cases l with
  | null => exact readAt_ident "null"
  | bool b => cases b <;> exact readAt_ident _
  | str s => exact ⟨⟨_, _, rfl, trivial⟩, fun _ hrest => primary_of_atom rfl hrest⟩
  | num x => exact ⟨⟨_, _, rfl, trivial⟩, fun _ hrest => primary_of_atom rfl hrest⟩
  | nat n =>
    obtain ⟨x, hparse, hx⟩ := h
    simp only [Lit.tokens, hparse, Option.toList_some, List.map_cons, List.map_nil, Lit.value, ← hx]
    exact ⟨⟨_, _, rfl, trivial⟩, fun _ hrest => primary_of_atom rfl hrest⟩

/-! ## Calls -/

/-- Arguments are values with commas between them and a parenthesis behind the last one. -/
theorem arguments_eq {p : Parse F Json} (h : ∀ t ∈ ts.head?, t ≠ .rParen) :
    arguments p ts = andThen (listBy isComma p) closed ts := by
  have hbody : arguments p ts =
      andThen (sepBy isComma p) (fun args => closed (args.1 :: args.2)) ts := by
    cases ts with
    | nil => rfl
    | cons t ts =>
      have ht := h t rfl
      cases t <;> first | rfl | exact absurd rfl ht
  rw [hbody, listBy, andThen, andThen, andThen]
  cases sepBy isComma p ts <;> rfl

/-- Values with commas between them are arguments, the first of which begins with no parenthesis. -/
theorem arguments_of_list {args : Except ExprError (List Json)}
    (hstarts : ∃ t us, ts = t :: us ∧ t.Starts 0)
    (h : ∀ rest, listBy isComma (parseOr fl ctx) (ts ++ .rParen :: rest) =
      args.map (·, .rParen :: rest)) (rest : List (Tok F)) :
    arguments (parseOr fl ctx) (ts ++ .rParen :: rest) = args.map (·, rest) := by
  rw [arguments_eq, andThen, h rest]
  · cases args <;> rfl
  · obtain ⟨t, us, rfl, ht⟩ := hstarts
    rintro _ ⟨⟩ rfl
    exact ht

theorem readAt_call {name : String} {args : Except ExprError (List Json)}
    (h : ∀ rest, arguments (parseOr fl ctx) (ts ++ .rParen :: rest) = args.map (·, rest)) :
    ReadAt fl ctx 4 (.ident name :: .lParen :: (ts ++ [.rParen])) (args.bind (call fl ctx name)) where
  starts := ⟨_, _, rfl, trivial⟩
  read rest hrest := by
    refine primary_of_atom ?_ hrest
    rw [List.cons_append, List.cons_append, List.append_assoc, List.singleton_append, parseAtom,
      andThen, h rest]
    cases args <;> rfl

/-! ## Trees -/

theorem values_cons (e : Ast F) (es : List (Ast F)) : Ast.values fl ctx (e :: es) =
    (e.value fl ctx).bind fun v => (Ast.values fl ctx es).map (v :: ·) := by
  rw [Ast.values]

/-- What some tokens begin with, they begin with in front of others. -/
theorem starts_append (h : ∃ t us, ts = t :: us ∧ t.Starts level) (rest : List (Tok F)) :
    ∃ t us, ts ++ rest = t :: us ∧ t.Starts level := by
  obtain ⟨t, us, rfl, ht⟩ := h
  exact ⟨t, us ++ rest, rfl, ht⟩

mutual

/-- **A tree is read as what it means.** -/
theorem Ast.read : (e : Ast F) → e.Readable fl →
    ReadAt fl ctx e.level (e.bare fl) (e.value fl ctx)
  | .or left right, h => by
    have hl := (left.read h.1).lower_le (Nat.zero_le _)
    have hr := (right.read h.2).lower_le (Nat.zero_le _)
    exact ⟨starts_append hl.starts _, hl.read.append hr.read rfl⟩
  | .and left right, h => by
    have hl := (left.read h.1).within (Nat.le_of_ble_eq_true rfl : 1 ≤ 4)
    have hr := (right.read h.2).within (Nat.le_of_ble_eq_true rfl : 1 ≤ 4)
    exact ⟨starts_append hl.starts _, hl.read.append hr.read rfl⟩
  | .not e, h => by
    have he := (e.read h).within (Nat.le_of_ble_eq_true rfl : 2 ≤ 4)
    refine ⟨⟨_, _, rfl, Nat.le_refl 2⟩, fun rest hrest => ?_⟩
    have hread : Reads (parseNot fl ctx (parseOr fl ctx)) (Behind 2) _ _ := he.read
    rw [Ast.bare, List.cons_append, parseNot, hread rest hrest, Ast.value]
    cases e.value fl ctx <;> rfl
  | .cmp op left right, h => by
    have hl := (left.read h.1).within (Nat.le_refl 4)
    have hr := (right.read h.2).within (Nat.le_refl 4)
    refine ⟨starts_append (hl.lower_le (Nat.le_succ 3)).starts _, fun rest hrest => ?_⟩
    have hleft : Reads (parsePrimary fl ctx (parseOr fl ctx)) (Behind 4) _ _ := hl.read
    have hright : Reads (parsePrimary fl ctx (parseOr fl ctx)) (Behind 4) _ _ := hr.read
    rw [Ast.bare, List.append_assoc, List.cons_append, parseCmp,
      hleft.andThen_eq (behind_op op _), Ast.value]
    cases left.value fl ctx with
    | error e => rfl
    | ok a =>
      simp only [Except.bind, compared, comparison_tok]
      rw [hright.andThen_eq (hrest.mono (by omega))]
      cases right.value fl ctx <;> rfl
  | .paren e, h => ((e.read h).lower_le (Nat.zero_le _)).paren
  | .path scope segs, h => readAt_path h segs
  | .lit l, h => readAt_lit h
  | .call name args, h => by
    refine readAt_call fun rest => ?_
    by_cases hargs : args = []
    · subst hargs
      rfl
    · obtain ⟨hstarts, hlist⟩ := Ast.read_args args h hargs
      exact arguments_of_list hstarts hlist rest

theorem Ast.read_args : (args : List (Ast F)) → Ast.AllReadable fl args → args ≠ [] →
    (∃ t us, Ast.bares fl args = t :: us ∧ t.Starts 0) ∧
    ∀ rest, listBy isComma (parseOr fl ctx) (Ast.bares fl args ++ .rParen :: rest) =
      (Ast.values fl ctx args).map (·, .rParen :: rest)
  | [], _, hargs => absurd rfl hargs
  | [e], h, _ => by
    have he := (e.read h.1).lower_le (Nat.zero_le _)
    refine ⟨he.starts, fun rest => ?_⟩
    rw [Ast.bares, listBy_ends keeps_parseOr (reads_parseOr he) (behind_rParen rest)]
    · rw [Ast.values, Ast.values]
      cases e.value fl ctx <;> rfl
    · rintro _ ⟨⟩
      rfl
  | e :: e' :: es, h, _ => by
    have he := (e.read h.1).lower_le (Nat.zero_le _)
    have hes := (Ast.read_args (e' :: es) h.2 (List.cons_ne_nil e' es)).2
    refine ⟨starts_append he.starts _, fun rest => ?_⟩
    rw [Ast.bares, List.append_assoc, List.cons_append,
      listBy_goes keeps_parseOr (reads_parseOr he) rfl (behind_comma _), hes rest, values_cons e (e' :: es)]
    cases e.value fl ctx with
    | error e => rfl
    | ok v => cases Ast.values fl ctx (e' :: es) <;> rfl

end

/-- **The tokens of a tree evaluate to what it means.** -/
theorem parseOr_tokens {e : Ast F} (h : e.Readable fl) :
    (parseOr fl ctx (e.tokens fl 0)).bind (complete fl) = e.value fl ctx := by
  have hread : Reads (parseOr fl ctx) (Behind 0) (e.tokens fl 0) (e.value fl ctx) :=
    reads_parseOr ((e.read h).within (Nat.zero_le 4))
  have hread := hread [] behind_nil
  rw [List.append_nil] at hread
  rw [hread]
  cases e.value fl ctx <;> rfl

end Levels

end HeyoCi.Expr
