import Mathlib.Data.List.Infix
import Mathlib.Tactic.SplitIfs

/-!
# Parsers by recursive descent

A parser that calls itself does so behind what it has read, so a bound on the depth that is larger
than the text is never met. `fix` ties the knot with such a bound, and `fix_eq` says that the bound
is not seen: the parser is its own body.

* `Parser`, `Keeps`, `SameOn`: a parser, one that leaves the end of what it was given, and two that do
  the same on some texts;
* `andThen`: a parser, and one that goes on with its value;
* `fix`, `Descends`: a parser that calls itself, and the bodies that call it on shorter texts only;
* **`fix_eq`**: such a parser is its own body; `agree_fix`: bodies that do the same call themselves
  alike;
* `sepBy`, `many`: items with a token between them, items up to the end of the text.
-/

universe u v w

namespace Descent

variable {τ : Type u} {ε : Type v} {α β : Type w}

/-- A value and what is left of the text, or an error. -/
abbrev Parser (τ : Type u) (ε : Type v) (α : Type w) := List τ → Except ε (α × List τ)

/-- What is left is the end of the text. -/
def Keeps (p : Parser τ ε α) : Prop := ∀ ts a rest, p ts = .ok (a, rest) → rest <:+ ts

/-- Two parsers do the same on the texts with a property. -/
def SameOn (P : List τ → Prop) (p q : Parser τ ε α) : Prop := ∀ ts, P ts → p ts = q ts

/-- The ends of a text with a property have it. -/
def Hereditary (P : List τ → Prop) : Prop := ∀ ⦃ts us⦄, us <:+ ts → P ts → P us

theorem Hereditary.tail {P : List τ → Prop} (hP : Hereditary P) {t : τ} {ts : List τ}
    (h : P (t :: ts)) : P ts := hP (List.suffix_cons t ts) h

/-- The texts below a length. -/
def Below (n : Nat) (ts : List τ) : Prop := ts.length < n

theorem hereditary_below (n : Nat) : Hereditary (Below n : List τ → Prop) := by
  intro ts us h hts
  exact Nat.lt_of_le_of_lt h.length_le hts

/-! ## One parser after another -/

theorem map_ok {σ : Type u} {ρ : Type w} {f : σ → ρ} {x : Except ε σ} {b : ρ} :
    x.map f = .ok b ↔ ∃ a, x = .ok a ∧ f a = b := by
  cases x <;> simp [Except.map]

/-- A parser, and then one that its value decides. -/
def andThen (p : Parser τ ε α) (f : α → Parser τ ε β) : Parser τ ε β := fun ts =>
  (p ts).bind fun (a, rest) => f a rest

theorem andThen_ok {p : Parser τ ε α} {f : α → Parser τ ε β} {ts : List τ} {b : β × List τ} :
    andThen p f ts = .ok b ↔ ∃ a rest, p ts = .ok (a, rest) ∧ f a rest = .ok b := by
  unfold andThen
  cases p ts with
  | error e => simp [Except.bind]
  | ok r =>
    obtain ⟨a, rest⟩ := r
    constructor
    · exact fun h => ⟨a, rest, rfl, h⟩
    · rintro ⟨_, _, h, hb⟩
      cases h
      exact hb

theorem keeps_ok (a : α) : Keeps (fun ts => .ok (a, ts) : Parser τ ε α) := by
  intro ts b rest h
  cases h
  exact List.suffix_rfl

theorem keeps_andThen {p : Parser τ ε α} {f : α → Parser τ ε β} (hp : Keeps p)
    (hf : ∀ a, Keeps (f a)) : Keeps (andThen p f) := by
  intro ts b rest h
  obtain ⟨a, mid, ha, hb⟩ := andThen_ok.mp h
  exact (hf a mid b rest hb).trans (hp ts a mid ha)

theorem agree_andThen {P : List τ → Prop} (hP : Hereditary P) {p q : Parser τ ε α}
    {f g : α → Parser τ ε β} (hp : Keeps p) (hpq : SameOn P p q) (hfg : ∀ a, SameOn P (f a) (g a)) :
    SameOn P (andThen p f) (andThen q g) := by
  intro ts hts
  unfold andThen
  rw [← hpq ts hts]
  cases hr : p ts with
  | error e => rfl
  | ok r =>
    obtain ⟨a, rest⟩ := r
    exact hfg a rest (hP (hp ts a rest hr) hts)

/-! ## A parser that calls itself -/

section Fix

variable [Inhabited ε]

/-- The calls of a body to itself, to a depth. -/
def fixAt (body : Parser τ ε α → Parser τ ε α) : Nat → Parser τ ε α
  | 0 => fun _ => .error default
  | n + 1 => body (fixAt body n)

/-- A body that calls itself. -/
def fix (body : Parser τ ε α → Parser τ ε α) : Parser τ ε α := fun ts => fixAt body (ts.length + 1) ts

/-- A body that calls itself on shorter texts only. -/
structure Descends (body : Parser τ ε α → Parser τ ε α) : Prop where
  keeps : ∀ p, Keeps p → Keeps (body p)
  agree : ∀ p q n, Keeps p → SameOn (Below n) p q → SameOn (Below (n + 1)) (body p) (body q)

variable {body body' : Parser τ ε α → Parser τ ε α} (h : Descends body)

include h

theorem keeps_fixAt (n : Nat) : Keeps (fixAt body n) := by
  induction n with
  | zero => exact fun _ _ _ hok => by cases hok
  | succ n ih => exact h.keeps _ ih

theorem keeps_fix : Keeps (fix body) := fun ts a rest hok =>
  keeps_fixAt h (ts.length + 1) ts a rest hok

/-- Depths beyond the length of a text do the same on it. -/
theorem agree_fixAt {m n : Nat} (hmn : m ≤ n) : SameOn (Below m) (fixAt body m) (fixAt body n) := by
  induction m generalizing n with
  | zero => exact fun _ hts => absurd hts (Nat.not_lt_zero _)
  | succ m ih =>
    obtain ⟨k, rfl⟩ : ∃ k, n = k + 1 := ⟨n - 1, by omega⟩
    apply h.agree
    · exact keeps_fixAt h m
    · exact ih (by omega)

theorem agree_fixAt_fix (n : Nat) : SameOn (Below n) (fixAt body n) (fix body) := by
  intro ts hts
  have hle : ts.length + 1 ≤ n := hts
  exact (agree_fixAt h hle ts (Nat.lt_succ_self _)).symm

/-- **A parser that calls itself is its own body**: the bound on the depth is never met. -/
theorem fix_eq : fix body = body (fix body) := by
  funext ts
  apply h.agree
  · exact keeps_fixAt h ts.length
  · exact agree_fixAt_fix h ts.length
  · exact Nat.lt_succ_self _

/-- **Bodies that do the same on some texts, with whatever they call, call themselves alike.** -/
theorem agree_fix {P : List τ → Prop}
    (hbody : ∀ p q, Keeps p → SameOn P p q → SameOn P (body p) (body' q)) :
    SameOn P (fix body) (fix body') := by
  have hdepth : ∀ k, SameOn P (fixAt body k) (fixAt body' k) := by
    intro k
    induction k with
    | zero => exact fun _ _ => rfl
    | succ k ih => exact hbody _ _ (keeps_fixAt h k) ih
  exact fun ts hts => hdepth (ts.length + 1) ts hts

end Fix

/-! ## Items with a token between them -/

section SepBy

variable (isSep : τ → Bool) {item item' : Parser τ ε α}

/-- An item, and more of them as long as a separator follows. -/
def sepByBody (item : Parser τ ε α) (self : Parser τ ε (α × List α)) :
    Parser τ ε (α × List α) := andThen item fun a rest => match rest with
  | [] => .ok ((a, []), [])
  | t :: rest' => if isSep t then (self rest').map fun ((b, bs), rest) => ((a, b :: bs), rest)
      else .ok ((a, []), t :: rest')

/-- The first item, and the others. -/
def sepBy [Inhabited ε] (item : Parser τ ε α) : Parser τ ε (α × List α) := fix (sepByBody isSep item)

variable {isSep}

theorem agree_sepByBody {P : List τ → Prop} (hP : Hereditary P) (hi : Keeps item)
    (hitem : SameOn P item item') {p q : Parser τ ε (α × List α)}
    (hpq : ∀ t ts, P (t :: ts) → p ts = q ts) :
    SameOn P (sepByBody isSep item p) (sepByBody isSep item' q) := by
  refine agree_andThen hP hi hitem fun a rest hrest => ?_
  cases rest with
  | nil => rfl
  | cons t rest =>
    simp only
    split_ifs
    · rw [hpq t rest hrest]
    · rfl

theorem descends_sepBy (hi : Keeps item) : Descends (sepByBody isSep item) where
  keeps p hp := by
    refine keeps_andThen hi fun a rest b rest' hok => ?_
    cases rest with
    | nil =>
      cases hok
      exact List.suffix_rfl
    | cons t rest =>
      simp only at hok
      split_ifs at hok
      · obtain ⟨r, hr, heq⟩ := map_ok.mp hok
        cases heq
        exact (hp rest r.1 r.2 hr).trans (List.suffix_cons t rest)
      · cases hok
        exact List.suffix_rfl
  agree p q n _ hpq := by
    apply agree_sepByBody (hereditary_below _) hi
    · exact fun _ _ => rfl
    · exact fun t ts hts => hpq ts (Nat.lt_of_succ_lt_succ hts)

variable [Inhabited ε]

theorem keeps_sepBy (hi : Keeps item) : Keeps (sepBy isSep item) := keeps_fix (descends_sepBy hi)

theorem agree_sepBy {P : List τ → Prop} (hP : Hereditary P) (hi : Keeps item)
    (hitem : SameOn P item item') : SameOn P (sepBy isSep item) (sepBy isSep item') := by
  apply agree_fix (descends_sepBy hi)
  intro p q _ hpq
  apply agree_sepByBody hP hi hitem
  exact fun t ts hts => hpq ts (hP.tail hts)

end SepBy

/-! ## Items up to the end -/

section Many

/-- Nothing at the end of the text, else an item and more of them. -/
def manyBody (next : τ → Parser τ ε α) (self : Parser τ ε (List α)) : Parser τ ε (List α)
  | [] => .ok ([], [])
  | t :: ts => andThen (next t) (fun a rest => (self rest).map fun (as, rest) => (a :: as, rest)) ts

variable {next : τ → Parser τ ε α}

theorem descends_many (hn : ∀ t, Keeps (next t)) : Descends (manyBody next) where
  keeps p hp := by
    intro ts as rest hok
    cases ts with
    | nil =>
      cases hok
      exact List.suffix_rfl
    | cons t ts =>
      rw [manyBody, andThen_ok] at hok
      obtain ⟨a, mid, ha, hb⟩ := hok
      obtain ⟨r, hr, heq⟩ := map_ok.mp hb
      cases heq
      exact ((hp mid r.1 r.2 hr).trans (hn t ts a mid ha)).trans (List.suffix_cons t ts)
  agree p q n hp hpq := by
    intro ts hts
    cases ts with
    | nil => rfl
    | cons t ts =>
      simp only [manyBody]
      refine agree_andThen (hereditary_below n) (hn t) (fun _ _ => rfl) (fun a rest hrest => ?_) ts
        (Nat.lt_of_succ_lt_succ hts)
      rw [hpq rest hrest]

variable [Inhabited ε]

/-- All items of a text. -/
def many (next : τ → Parser τ ε α) (ts : List τ) : Except ε (List α) :=
  (fix (manyBody next) ts).map (·.1)

/-- An item, and the others behind it. -/
theorem many_cons (hn : ∀ t, Keeps (next t)) (t : τ) (ts : List τ) : many next (t :: ts) =
    (next t ts).bind fun (a, rest) => (many next rest).map (a :: ·) := by
  unfold many
  rw [congrFun (fix_eq (descends_many hn)) (t :: ts), manyBody, andThen]
  cases next t ts with
  | error e => rfl
  | ok r =>
    obtain ⟨a, rest⟩ := r
    simp only [Except.bind]
    cases fix (manyBody next) rest <;> rfl

end Many

end Descent
