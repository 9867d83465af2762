import Mathlib.Data.List.Forall2
import Mathlib.Data.List.Infix

/-!
# Patterns with stars

* `Piece`, `Matches`: a pattern of runs, places and letters, and the texts it takes;
* `scan`: a reader that goes back to the last star only, turn by turn;
* `Along`, `Later`: what its place behind the last star is, and what that star may still do;
* **`scan_iff`**: within `turns` the reader ends, and says whether the pattern takes the text;
* `Divides`: items divided among places, of which some take any number; `divides_any`, `divides_one`.
-/

universe u v

namespace Glob

variable {α : Type u}

/-- One place of a pattern. -/
inductive Piece (α : Type u) where
  /-- Any run of letters. -/
  | run
  /-- Any letter. -/
  | one
  | letter (a : α)
  deriving Repr, DecidableEq

/-- The pattern takes the text. -/
def Matches : List (Piece α) → List α → Prop
  | [], text => text = []
  | .run :: pat, text => ∃ taken rest, text = taken ++ rest ∧ Matches pat rest
  | .one :: pat, text => ∃ a rest, text = a :: rest ∧ Matches pat rest
  | .letter a :: pat, text => ∃ rest, text = a :: rest ∧ Matches pat rest

theorem matches_nil_iff {pat : List (Piece α)} : Matches pat [] ↔ ∀ x ∈ pat, x = .run := by
  induction pat with
  | nil => simp [Matches]
  | cons x pat ih =>
    cases x with
    | run =>
      rw [Matches]
      constructor
      · rintro ⟨taken, rest, hsplit, hrest⟩ x hx
        obtain ⟨-, rfl⟩ := List.append_eq_nil_iff.mp hsplit.symm
        rcases List.mem_cons.mp hx with rfl | hx
        · rfl
        · exact ih.mp hrest x hx
      · exact fun hall => ⟨[], [], rfl, ih.mpr fun x hx => hall x (List.mem_cons_of_mem _ hx)⟩
    | one => simp [Matches]
    | letter a => simp [Matches]

/-- A star takes nothing, or a letter more. -/
theorem matches_run_cons {pat : List (Piece α)} {a : α} {text : List α} :
    Matches (.run :: pat) (a :: text) ↔ Matches pat (a :: text) ∨ Matches (.run :: pat) text := by
  simp only [Matches]
  constructor
  · rintro ⟨taken, rest, hsplit, hrest⟩
    cases taken with
    | nil =>
      rw [List.nil_append] at hsplit
      exact Or.inl (hsplit ▸ hrest)
    | cons b taken =>
      cases hsplit
      exact Or.inr ⟨taken, rest, rfl, hrest⟩
  · rintro (hrest | ⟨taken, rest, rfl, hrest⟩)
    · exact ⟨[], a :: text, rfl, hrest⟩
    · exact ⟨a :: taken, rest, rfl, hrest⟩

theorem Matches.append {pat q : List (Piece α)} {text rest : List α} (h : Matches pat text)
    (hq : Matches q rest) : Matches (pat ++ q) (text ++ rest) := by
  induction pat generalizing text with
  | nil =>
    obtain rfl : text = [] := h
    exact hq
  | cons x pat ih =>
    cases x with
    | run =>
      obtain ⟨taken, tail, rfl, htail⟩ := h
      exact ⟨taken, tail ++ rest, List.append_assoc taken tail rest, ih htail⟩
    | one =>
      obtain ⟨a, tail, rfl, htail⟩ := h
      exact ⟨a, tail ++ rest, rfl, ih htail⟩
    | letter a =>
      obtain ⟨tail, rfl, htail⟩ := h
      exact ⟨tail ++ rest, rfl, ih htail⟩

/-- What a pattern without a star takes is as long as the pattern. -/
theorem split_of_matches_append {q pat : List (Piece α)} (hq : ∀ x ∈ q, x ≠ .run) {text : List α}
    (h : Matches (q ++ pat) text) :
    ∃ taken rest, text = taken ++ rest ∧ taken.length = q.length ∧ Matches pat rest := by
  induction q generalizing text with
  | nil => exact ⟨[], text, rfl, rfl, h⟩
  | cons x q ih =>
    have hrest : ∃ a rest, text = a :: rest ∧ Matches (q ++ pat) rest := by
      cases x with
      | run => exact absurd rfl (hq .run List.mem_cons_self)
      | one => exact h
      | letter a =>
        obtain ⟨rest, heq, hrest⟩ := h
        exact ⟨a, rest, heq, hrest⟩
    obtain ⟨a, rest, rfl, hrest⟩ := hrest
    obtain ⟨taken, rest, rfl, hlen, hpat⟩ := ih (fun y hy => hq y (List.mem_cons_of_mem _ hy)) hrest
    exact ⟨a :: taken, rest, rfl, by rw [List.length_cons, List.length_cons, hlen], hpat⟩

/-! ## The reader -/

/-- The rest of the pattern and of the text, and where the last star is taken up again: the pattern
behind it, and the text it does not take. There is no result when the turns run out. -/
def scan [DecidableEq α] : Nat → List (Piece α) → List α → Option (List (Piece α) × List α) →
    Option Bool
  | 0, _, _, _ => none
  | _ + 1, pat, [], _ => some (pat.all (· = .run))
  | n + 1, pat, a :: text, star =>
    let resume := match star with
      | some (pat, text) => scan n pat text.tail (some (pat, text.tail))
      | none => some false
    match pat with
    | .run :: pat => scan n pat (a :: text) (some (pat, a :: text))
    | .one :: pat => scan n pat text star
    | .letter b :: pat => if b = a then scan n pat text star else resume
    | [] => resume

/-- Behind the last star pattern and text were read along each other. -/
def Along (pat : List (Piece α)) (text : List α) : Option (List (Piece α) × List α) → Prop
  | none => True
  | some (p, t) => ∃ q w, p = q ++ pat ∧ t = w ++ text ∧ w.length = q.length ∧ ∀ x ∈ q, x ≠ .run

/-- The last star takes at least one letter more. -/
def Later : Option (List (Piece α) × List α) → Prop
  | none => False
  | some (p, t) => t ≠ [] ∧ Matches (.run :: p) t.tail

/-- With the text at its end no star has a letter to take more. -/
theorem not_later_of_along {pat : List (Piece α)} {star : Option (List (Piece α) × List α)}
    (h : Along pat [] star) : ¬ Later star := by
  cases star with
  | none => exact id
  | some pt =>
    obtain ⟨p, t⟩ := pt
    obtain ⟨q, w, rfl, rfl, hlen, hq⟩ := h
    rintro ⟨hne, taken, rest, hsplit, hrest⟩
    obtain ⟨taken', rest', rfl, hlen', -⟩ := split_of_matches_append hq hrest
    have hcut := congrArg List.length hsplit
    have hpos := List.length_pos_of_ne_nil hne
    simp only [List.append_nil, List.length_tail, List.length_append] at hcut hpos
    omega

/-- What an earlier star may still do, a later one can do as well. -/
theorem run_of_later {pat : List (Piece α)} {text : List α}
    {star : Option (List (Piece α) × List α)} (h : Along (.run :: pat) text star)
    (hlater : Later star) : Matches (.run :: pat) text := by
  cases star with
  | none => exact hlater.elim
  | some pt =>
    obtain ⟨p, t⟩ := pt
    obtain ⟨q, w, rfl, rfl, hlen, hq⟩ := h
    obtain ⟨-, taken, rest, hsplit, hrest⟩ := hlater
    obtain ⟨taken', rest', rfl, hlen', before, rest, rfl, hpat⟩ := split_of_matches_append hq hrest
    have hsuffix : rest <:+ w ++ text :=
      ⟨(w ++ text).take 1 ++ (taken ++ (taken' ++ before)), by
        rw [List.append_assoc, List.append_assoc, List.append_assoc, ← hsplit, ← List.drop_one,
          List.take_append_drop]⟩
    have hle : rest.length ≤ text.length := by
      have hcut := congrArg List.length hsplit
      simp only [List.length_tail, List.length_append] at hcut
      omega
    obtain ⟨more, hmore⟩ := List.suffix_of_suffix_length_le hsuffix (List.suffix_append w text) hle
    exact ⟨more, rest, hmore.symm, hpat⟩

theorem Along.step {x : Piece α} {pat : List (Piece α)} {a : α} {text : List α}
    {star : Option (List (Piece α) × List α)} (hx : x ≠ .run)
    (h : Along (x :: pat) (a :: text) star) : Along pat text star := by
  cases star with
  | none => trivial
  | some pt =>
    obtain ⟨p, t⟩ := pt
    obtain ⟨q, w, rfl, rfl, hlen, hq⟩ := h
    refine ⟨q ++ [x], w ++ [a], by simp, by simp, by simp [hlen], fun y hy => ?_⟩
    rcases List.mem_append.mp hy with hy | hy
    · exact hq y hy
    · exact List.mem_singleton.mp hy ▸ hx

/-- A star that takes a letter more takes just that one, or more. -/
theorem later_iff {pat p : List (Piece α)} {a : α} {text t : List α}
    (h : Along pat (a :: text) (some (p, t))) :
    Later (some (p, t)) ↔ Matches p t.tail ∨ Later (some (p, t.tail)) := by
  obtain ⟨q, w, -, rfl, -, -⟩ := h
  simp only [Later, ne_eq, List.append_eq_nil_iff, List.cons_ne_nil, and_false, not_false_eq_true,
    true_and]
  cases (w ++ a :: text).tail with
  | nil => simp [Matches]
  | cons c tl => simp [matches_run_cons]

theorem along_start (pat : List (Piece α)) (text : List α) : Along pat text (some (pat, text)) :=
  ⟨[], [], rfl, rfl, rfl, fun _ hx => absurd hx List.not_mem_nil⟩

/-! ## Turns -/

theorem digits_lt {base a b a' b' : Nat} (ha : a < a') (hb : b < base) :
    a * base + b < a' * base + b' := by
  have hmul : (a + 1) * base ≤ a' * base := Nat.mul_le_mul_right base ha
  rw [Nat.add_mul, Nat.one_mul] at hmul
  omega

/-- The turns that are left at most: the pattern behind the last star gets shorter, or that star takes
a letter more, or a letter is read. `len` is a bound on the text. -/
def weight (len : Nat) (pat : List (Piece α)) (text : List α) :
    Option (List (Piece α) × List α) → Nat
  | none => (pat.length * (len + 1) + len) * (len + 1) + text.length
  | some (p, t) => (p.length * (len + 1) + t.length) * (len + 1) + text.length

/-- The text behind the last star is no longer than the whole text. -/
def Within (len : Nat) : Option (List (Piece α) × List α) → Prop
  | none => True
  | some (_, t) => t.length ≤ len

theorem weight_step {len : Nat} {x : Piece α} {pat : List (Piece α)} {a : α} {text : List α}
    (star : Option (List (Piece α) × List α)) :
    weight len pat text star < weight len (x :: pat) (a :: text) star := by
  cases star with
  | none =>
    have hle : pat.length * (len + 1) + len ≤ (x :: pat).length * (len + 1) + len :=
      Nat.add_le_add_right (Nat.mul_le_mul_right _ (Nat.le_succ _)) _
    have hmul := Nat.mul_le_mul_right (len + 1) hle
    rw [weight, weight, List.length_cons (a := a)]
    omega
  | some pt =>
    rw [weight, weight, List.length_cons]
    omega

theorem weight_run {len : Nat} {pat : List (Piece α)} {text : List α}
    {star : Option (List (Piece α) × List α)} (htext : text.length ≤ len)
    (h : Along (.run :: pat) text star) :
    weight len pat text (some (pat, text)) < weight len (.run :: pat) text star := by
  have hhigh : pat.length * (len + 1) + text.length < (pat.length + 1) * (len + 1) + 0 :=
    digits_lt (Nat.lt_succ_self _) (Nat.lt_succ_of_le htext)
  cases star with
  | none =>
    rw [weight, weight, List.length_cons]
    refine digits_lt ?_ (Nat.lt_succ_of_le htext)
    omega
  | some pt =>
    obtain ⟨p, t⟩ := pt
    obtain ⟨q, w, rfl, rfl, -, -⟩ := h
    rw [weight, weight]
    refine digits_lt (digits_lt ?_ (Nat.lt_succ_of_le htext)) (Nat.lt_succ_of_le htext)
    rw [List.length_append, List.length_cons]
    omega

theorem weight_resume {len : Nat} {pat p : List (Piece α)} {a : α} {text t : List α}
    (hlen : t.length ≤ len) (h : Along pat (a :: text) (some (p, t))) :
    weight len p t.tail (some (p, t.tail)) < weight len pat (a :: text) (some (p, t)) := by
  obtain ⟨q, w, rfl, rfl, -, -⟩ := h
  rw [List.length_append, List.length_cons] at hlen
  rw [weight, weight]
  refine digits_lt ?_ ?_ <;> simp only [List.length_tail, List.length_append, List.length_cons] <;>
    omega

/-! ## What the reader says -/

section Reader

variable [DecidableEq α]

/-- A reader at its place says whether the rest of the pattern takes the rest of the text, or the last
star may take more. -/
theorem scan_spec {len n : Nat} {pat : List (Piece α)} {text : List α}
    {star : Option (List (Piece α) × List α)} (hn : weight len pat text star < n)
    (htext : text.length ≤ len) (hwithin : Within len star) (halong : Along pat text star) :
    ∃ b, scan n pat text star = some b ∧ (b = true ↔ Matches pat text ∨ Later star) := by
  induction n generalizing pat text star with
  | zero => exact absurd hn (Nat.not_lt_zero _)
  | succ n ih =>
    cases text with
    | nil =>
      refine ⟨_, by rw [scan], ?_⟩
      rw [or_iff_left (not_later_of_along halong), matches_nil_iff, List.all_eq_true]
      simp only [decide_eq_true_eq]
    | cons a text =>
      -- the last star takes a letter more, where the pattern does not take the text
      have hresume : ¬ Matches pat (a :: text) → ∃ b, (match star with
          | some (pat, text) => scan n pat text.tail (some (pat, text.tail))
          | none => some false) = some b ∧ (b = true ↔ Matches pat (a :: text) ∨ Later star) := by
        intro hno
        cases star with
        | none => exact ⟨false, rfl, by simp [hno, Later]⟩
        | some pt =>
          obtain ⟨p, t⟩ := pt
          have hlt := weight_resume hwithin halong
          have htail : t.tail.length ≤ len := by
            rw [List.length_tail]
            exact Nat.le_trans (Nat.sub_le _ _) hwithin
          obtain ⟨b, hscan, hb⟩ := @ih _ _ (some (p, t.tail)) (by omega) htail htail
            (along_start p t.tail)
          refine ⟨b, hscan, ?_⟩
          rw [hb, or_iff_right hno, later_iff halong]
      cases pat with
      | nil => exact hresume (by simp [Matches])
      | cons x pat =>
        cases x with
        | run =>
          have hlt := weight_run htext halong
          obtain ⟨b, hscan, hb⟩ := @ih _ _ (some (pat, a :: text)) (by omega) htext htext
            (along_start pat (a :: text))
          refine ⟨b, hscan, ?_⟩
          rw [hb, matches_run_cons, Later, and_iff_right (List.cons_ne_nil _ _), List.tail_cons]
          refine ⟨Or.inl, fun h => h.elim id fun hlater => ?_⟩
          exact matches_run_cons.mp (run_of_later halong hlater)
        | one =>
          have hlt : weight len pat text star < weight len (.one :: pat) (a :: text) star :=
            weight_step star
          rw [List.length_cons] at htext
          obtain ⟨b, hscan, hb⟩ := ih (by omega) (by omega) hwithin (halong.step (by simp))
          refine ⟨b, hscan, ?_⟩
          rw [hb, Matches]
          simp
        | letter c =>
          by_cases hc : c = a
          · have hlt : weight len pat text star < weight len (.letter c :: pat) (a :: text) star :=
              weight_step star
            rw [List.length_cons] at htext
            obtain ⟨b, hscan, hb⟩ := ih (by omega) (by omega) hwithin (halong.step (by simp))
            refine ⟨b, (if_pos hc).trans hscan, ?_⟩
            rw [hb, Matches]
            simp [hc]
          · obtain ⟨b, hscan, hb⟩ := hresume <| by
              rintro ⟨rest, heq, -⟩
              injection heq with heq
              exact hc heq.symm
            exact ⟨b, (if_neg hc).trans hscan, hb⟩

/-- The turns that are enough for a text. -/
def turns (pat : List (Piece α)) (text : List α) : Nat :=
  (pat.length + 1) * (text.length + 1) * (text.length + 1)

/-- **The reader ends, and says whether the pattern takes the text.** -/
theorem scan_iff {n : Nat} {pat : List (Piece α)} {text : List α} (hn : turns pat text ≤ n) :
    ∃ b, scan n pat text none = some b ∧ (b = true ↔ Matches pat text) := by
  have hweight : weight text.length pat text none + 1 = turns pat text := by
    rw [weight, turns]
    generalize text.length = len
    generalize pat.length = places
    rw [Nat.add_assoc, ← Nat.succ_mul, Nat.succ_eq_add_one, Nat.add_assoc, ← Nat.succ_mul]
  have hlt : weight text.length pat text none < n := by omega
  obtain ⟨b, hscan, hb⟩ := scan_spec hlt (Nat.le_refl _) trivial trivial
  exact ⟨b, hscan, hb.trans (or_iff_left id)⟩

instance (pat : List (Piece α)) (text : List α) : Decidable (Matches pat text) :=
  decidable_of_iff (scan (turns pat text) pat text none = some true) <| by
    obtain ⟨b, hscan, hb⟩ := scan_iff (Nat.le_refl (turns pat text))
    rw [hscan, Option.some_inj, hb]

end Reader

/-! ## Places that take any number of items -/

section Divides

variable {π : Type u} {σ : Type v} (any : π → Prop) (takes : π → σ → Prop)

/-- The items are divided among the places in their order: a place of any number takes what it is
given, any other place takes one item. -/
def Divides (places : List π) (items : List σ) : Prop :=
  ∃ parts : List (List σ), items = parts.flatten ∧
    List.Forall₂ (fun p part => ¬ any p → ∃ s, part = [s] ∧ takes p s) places parts

variable {any takes} {p : π} {places : List π} {items : List σ}

theorem divides_nil : Divides any takes [] items ↔ items = [] := by
  constructor
  · rintro ⟨parts, rfl, hparts⟩
    cases hparts
    rfl
  · rintro rfl
    exact ⟨[], rfl, .nil⟩

theorem divides_any (hp : any p) : Divides any takes (p :: places) items ↔
    ∃ rest, rest <:+ items ∧ Divides any takes places rest := by
  constructor
  · rintro ⟨parts, rfl, hparts⟩
    cases hparts with
    | cons _ hrest => exact ⟨_, List.suffix_append _ _, _, rfl, hrest⟩
  · rintro ⟨_, ⟨part, rfl⟩, parts, rfl, hparts⟩
    exact ⟨part :: parts, rfl, .cons (fun hno => absurd hp hno) hparts⟩

theorem divides_one (hp : ¬ any p) : Divides any takes (p :: places) items ↔
    ∃ s rest, items = s :: rest ∧ takes p s ∧ Divides any takes places rest := by
  constructor
  · rintro ⟨parts, rfl, hparts⟩
    cases hparts with
    | cons hpart hrest =>
      obtain ⟨s, rfl, hs⟩ := hpart hp
      exact ⟨s, _, rfl, hs, _, rfl, hrest⟩
  · rintro ⟨s, _, rfl, hs, parts, rfl, hparts⟩
    exact ⟨[s] :: parts, rfl, .cons (fun _ => ⟨s, rfl, hs⟩) hparts⟩

end Divides

end Glob
