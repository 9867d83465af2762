import HeyoCi.Lib.Descent

/-!
# Operands and the operators between them

* `Reads`: a parser reads some tokens, whatever is behind them;
* `foldBy`, `listBy`: operands with an operator between them, joined from the left or kept;
* `Linked`: tokens that such a parser reads as one value, and as its first operands;
* **`linked_of_reads`**, **`Linked.append`**: an operand is linked, and so are two linked texts with an
  operator between them.
-/

universe u v w

namespace Descent

variable {τ : Type u} {ε : Type v} {α β : Type w}

/-- A parser reads some tokens with a result, in front of whatever has a property. -/
def Reads (p : Parser τ ε α) (Rest : List τ → Prop) (ts : List τ) (r : Except ε α) : Prop :=
  ∀ rest, Rest rest → p (ts ++ rest) = r.map (·, rest)

theorem Reads.mono {p : Parser τ ε α} {P Q : List τ → Prop} {ts : List τ} {r : Except ε α}
    (h : Reads p P ts r) (hPQ : ∀ rest, Q rest → P rest) : Reads p Q ts r :=
  fun rest hrest => h rest (hPQ rest hrest)

/-- What follows a parser goes on behind the tokens that it reads. -/
theorem Reads.andThen_eq {p : Parser τ ε α} {f : α → Parser τ ε β} {P : List τ → Prop}
    {ts rest : List τ} {r : Except ε α} (h : Reads p P ts r) (hrest : P rest) :
    andThen p f (ts ++ rest) = r.bind fun a => f a rest := by
  unfold andThen
  rw [h rest hrest]
  cases r <;> rfl

/-! ## Operands -/

section FoldBy

variable [Inhabited ε] (isSep : τ → Bool) (item : Parser τ ε α) (op : α → α → α)

/-- Operands with an operator between them, joined from the left. -/
def foldBy : Parser τ ε α :=
  andThen (sepBy isSep item) fun (a, as) ts => .ok (as.foldl op a, ts)

variable {isSep item op} {P : List τ → Prop} {ts us rest : List τ} {t : τ} {r s : Except ε α}

/-- No operator is behind an operand. -/
theorem sepBy_ends (hi : Keeps item) (h : Reads item P ts r) (hrest : P rest)
    (hsep : ∀ t ∈ rest.head?, isSep t = false) :
    sepBy isSep item (ts ++ rest) = r.map fun a => ((a, []), rest) := by
  rw [sepBy, congrFun (fix_eq (descends_sepBy hi)) (ts ++ rest), sepByBody, h.andThen_eq hrest]
  cases r with
  | error e => rfl
  | ok a =>
    cases rest with
    | nil => rfl
    | cons t rest =>
      have ht : isSep t = false := hsep t rfl
      simp [Except.bind, Except.map, ht]

/-- An operator is behind an operand, and more of them. -/
theorem sepBy_goes (hi : Keeps item) (h : Reads item P ts r) (ht : isSep t = true)
    (hrest : P (t :: us)) : sepBy isSep item (ts ++ t :: us) = r.bind fun a =>
      (sepBy isSep item us).map fun ((b, bs), rest) => ((a, b :: bs), rest) := by
  rw [sepBy, congrFun (fix_eq (descends_sepBy hi)) (ts ++ t :: us), sepByBody, h.andThen_eq hrest]
  cases r with
  | error e => rfl
  | ok a =>
    simp only [Except.bind, ht, if_true]

variable (isSep item) in
/-- The operands themselves. -/
def listBy : Parser τ ε (List α) := andThen (sepBy isSep item) fun (a, as) ts => .ok (a :: as, ts)

theorem listBy_ends (hi : Keeps item) (h : Reads item P ts r) (hrest : P rest)
    (hsep : ∀ t ∈ rest.head?, isSep t = false) :
    listBy isSep item (ts ++ rest) = r.map fun a => ([a], rest) := by
  rw [listBy, andThen, sepBy_ends hi h hrest hsep]
  cases r <;> rfl

theorem listBy_goes (hi : Keeps item) (h : Reads item P ts r) (ht : isSep t = true)
    (hrest : P (t :: us)) : listBy isSep item (ts ++ t :: us) =
      r.bind fun a => (listBy isSep item us).map fun (as, rest) => (a :: as, rest) := by
  rw [listBy, andThen, andThen, sepBy_goes hi h ht hrest]
  cases r with
  | error e => rfl
  | ok a =>
    simp only [Except.bind]
    cases sepBy isSep item us <;> rfl

variable (isSep item op P) in
/-- Tokens that are read as one value when no operator is behind them, and joined with what is read
behind one. -/
structure Linked (ts : List τ) (r : Except ε α) : Prop where
  ends : Reads (foldBy isSep item op) (fun rest => P rest ∧ ∀ t ∈ rest.head?, isSep t = false) ts r
  links : ∀ t us, isSep t = true → foldBy isSep item op (ts ++ t :: us) =
    r.bind fun a => (foldBy isSep item op us).map fun (b, rest) => (op a b, rest)

/-- **An operand is linked.** -/
theorem linked_of_reads [Std.Associative op] (hi : Keeps item) (h : Reads item P ts r)
    (hsep : ∀ t us, isSep t = true → P (t :: us)) : Linked isSep item op P ts r where
  ends rest hrest := by
    rw [foldBy, andThen, sepBy_ends hi h hrest.1 hrest.2]
    cases r <;> rfl
  links t us ht := by
    rw [foldBy, andThen, andThen, sepBy_goes hi h ht (hsep t us ht)]
    cases r with
    | error e => rfl
    | ok a =>
      simp only [Except.bind]
      cases sepBy isSep item us with
      | error e => rfl
      | ok b =>
        obtain ⟨⟨b, bs⟩, rest⟩ := b
        simp only [Except.map, List.foldl_cons, List.foldl_assoc]

/-- **An operator between two linked texts joins them.** -/
theorem Linked.append [Std.Associative op] (h : Linked isSep item op P ts r)
    (h' : Linked isSep item op P us s) (ht : isSep t = true) :
    Linked isSep item op P (ts ++ t :: us) (r.bind fun a => s.map (op a)) where
  ends rest hrest := by
    rw [List.append_assoc, List.cons_append, h.links t _ ht, h'.ends rest hrest]
    cases r with
    | error e => rfl
    | ok a => cases s <;> rfl
  links t' vs ht' := by
    rw [List.append_assoc, List.cons_append, h.links t _ ht, h'.links t' vs ht']
    cases r with
    | error e => rfl
    | ok a =>
      cases s with
      | error e => rfl
      | ok b =>
        simp only [Except.bind, Except.map]
        cases foldBy isSep item op vs with
        | error e => rfl
        | ok c => simp only [Std.Associative.assoc]

end FoldBy

end Descent
