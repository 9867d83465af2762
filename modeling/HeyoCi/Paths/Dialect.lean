import HeyoCi.Lib.Glob
import HeyoCi.Paths
import HeyoCi.Submit.Trim

/-!
# The dialect of path patterns

* `Place`, `turn`, `Ends`: the loop over a segment, turn by turn, and its result;
* `piece`, `Takes`: what a segment of a pattern takes, by the recursive definition;
* **`matchSegment_spec`**: the loop ends, with that;
* `Stripped`, `Covers`: what a pattern covers;
* **`pathMatches_iff_covers`**: so does the code.
-/

namespace HeyoCi.Paths

/-! ## The loop over a segment -/

/-- Where the loop is: `pi` and `ti` by what is behind them, and `star`. -/
structure Place where
  pat : List Char
  text : List Char
  star : Option (List Char × List Char)

/-- One turn of the loop: the next place, or the result. -/
def turn : Place → Place ⊕ Bool
  | ⟨pat, [], _⟩ => .inr (pat.all (· = '*'))
  | ⟨pat, c :: text, star⟩ =>
    let resume : Place ⊕ Bool := match star with
      | some (pat, text) => .inl ⟨pat, text.tail, some (pat, text.tail)⟩
      | none => .inr false
    match pat with
    | '*' :: pat => .inl ⟨pat, c :: text, some (pat, c :: text)⟩
    | '?' :: pat => .inl ⟨pat, text, star⟩
    | a :: pat => if a = c then .inl ⟨pat, text, star⟩ else resume
    | [] => resume

/-- The loop ends with a result. -/
inductive Ends : Place → Bool → Prop
  | stop {p : Place} {b : Bool} : turn p = .inr b → Ends p b
  | step {p q : Place} {b : Bool} : turn p = .inl q → Ends q b → Ends p b

/-- What a character of a pattern stands for. -/
def piece : Char → Glob.Piece Char
  | '*' => .run
  | '?' => .one
  | c => .letter c

/-- A segment of a pattern takes a segment of a path. -/
def Takes (pat text : String) : Prop := Glob.Matches (pat.toList.map piece) text.toList

theorem piece_letter {c : Char} (hstar : c ≠ '*') (hone : c ≠ '?') : piece c = .letter c := by
  unfold piece
  split
  · exact absurd rfl hstar
  · exact absurd rfl hone
  · rfl

theorem piece_eq_run {c : Char} : piece c = .run ↔ c = '*' := by
  unfold piece
  split <;> simp_all

section Letter

variable {a c : Char} {pat text : List Char} {star : Option (List Char × List Char)}

theorem turn_letter (hstar : a ≠ '*') (hone : a ≠ '?') : turn ⟨a :: pat, c :: text, star⟩ =
    if a = c then .inl ⟨pat, text, star⟩ else match star with
      | some (pat, text) => .inl ⟨pat, text.tail, some (pat, text.tail)⟩
      | none => .inr false := by
  unfold turn
  dsimp only
  split
  · exact absurd (List.cons_eq_cons.mp ‹_›).1 hstar
  · exact absurd (List.cons_eq_cons.mp ‹_›).1 hone
  · obtain ⟨rfl, rfl⟩ := List.cons_eq_cons.mp ‹_›
    rfl
  · exact absurd ‹_› (List.cons_ne_nil _ _)

theorem matchLoop_letter {n : Nat} (hstar : a ≠ '*') (hone : a ≠ '?') :
    matchLoop (n + 1) (a :: pat) (c :: text) star =
      if a = c then matchLoop n pat text star else match star with
        | some (pat, text) => matchLoop n pat text.tail (some (pat, text.tail))
        | none => false := by
  rw [matchLoop.eq_def]
  dsimp only
  split
  · exact absurd (List.cons_eq_cons.mp ‹_›).1 hstar
  · exact absurd (List.cons_eq_cons.mp ‹_›).1 hone
  · obtain ⟨rfl, rfl⟩ := List.cons_eq_cons.mp ‹_›
    rfl
  · exact absurd ‹_› (List.cons_ne_nil _ _)

end Letter

/-- A star, as the reader of pieces keeps it. -/
def pieces : Option (List Char × List Char) → Option (List (Glob.Piece Char) × List Char) :=
  Option.map fun (pat, text) => (pat.map piece, text)

/-- The loop is the reader of its pieces. -/
theorem ends_of_scan {n : Nat} {pat text : List Char} {star : Option (List Char × List Char)}
    {b : Bool} (h : Glob.scan n (pat.map piece) text (pieces star) = some b) :
    Ends ⟨pat, text, star⟩ b ∧ matchLoop n pat text star = b := by
  induction n generalizing pat text star with
  | zero => cases h
  | succ n ih =>
    cases text with
    | nil =>
      have hall : (pat.map piece).all (fun x => x = .run) = pat.all (fun c => c = '*') := by
        simp [List.all_map, Function.comp_def, piece_eq_run]
      injection h with h
      rw [hall] at h
      exact ⟨.stop (congrArg Sum.inr h), h⟩
    | cons c text =>
      cases pat with
      | nil =>
        cases star with
        | none =>
          injection h with h
          exact ⟨.stop (congrArg Sum.inr h), h⟩
        | some pt =>
          obtain ⟨hends, hloop⟩ := @ih _ _ (some (pt.1, pt.2.tail)) h
          exact ⟨.step rfl hends, hloop⟩
      | cons a pat =>
        by_cases hstar : a = '*'
        · subst hstar
          obtain ⟨hends, hloop⟩ := @ih _ _ (some (pat, c :: text)) h
          exact ⟨.step rfl hends, hloop⟩
        by_cases hone : a = '?'
        · subst hone
          obtain ⟨hends, hloop⟩ := ih h
          exact ⟨.step rfl hends, hloop⟩
        rw [List.map_cons, piece_letter hstar hone] at h
        have hturn := @turn_letter a c pat text star hstar hone
        rw [matchLoop_letter hstar hone]
        by_cases hc : a = c
        · obtain ⟨hends, hloop⟩ := ih ((if_pos hc).symm.trans h)
          rw [if_pos hc] at hturn ⊢
          exact ⟨.step hturn hends, hloop⟩
        · rw [if_neg hc] at hturn ⊢
          replace h := (if_neg hc).symm.trans h
          cases star with
          | none =>
            injection h with h
            exact ⟨.stop (hturn.trans (congrArg Sum.inr h)), h⟩
          | some pt =>
            obtain ⟨hends, hloop⟩ := @ih _ _ (some (pt.1, pt.2.tail)) h
            exact ⟨.step hturn hends, hloop⟩

/-- **The loop over a segment ends, and says whether the pattern takes it.** -/
theorem matchSegment_spec (pat text : String) :
    Ends ⟨pat.toList, text.toList, none⟩ (matchSegment pat text) ∧
      (matchSegment pat text = true ↔ Takes pat text) := by
  have hturns : Glob.turns (pat.toList.map piece) text.toList ≤
      (pat.length + 1) * (text.length + 2) * (text.length + 2) := by
    rw [Glob.turns, List.length_map, String.length_toList, String.length_toList]
    exact Nat.mul_le_mul (Nat.mul_le_mul_left _ (Nat.le_succ _)) (Nat.le_succ _)
  obtain ⟨b, hscan, hb⟩ := Glob.scan_iff hturns
  obtain ⟨hends, hloop⟩ := @ends_of_scan _ _ _ none _ hscan
  unfold matchSegment
  rw [hloop]
  exact ⟨hends, hb⟩

/-! ## Whole paths -/

/-- A segment of a pattern takes any number of segments. -/
def Spans (pat : String) : Prop := pat = "**"

theorem matchSegments_iff {pat path : List String} :
    matchSegments pat path = true ↔ Glob.Divides Spans Takes pat path := by
  induction pat generalizing path with
  | nil => rw [matchSegments, List.isEmpty_iff, Glob.divides_nil]
  | cons first pat ih =>
    by_cases hany : first = "**"
    · have hspans : Spans first := hany
      subst hany
      rw [Glob.divides_any hspans, matchSegments, Bool.or_eq_true, List.isEmpty_iff, List.any_eq_true]
      constructor
      · rintro (rfl | ⟨rest, hrest, hmatch⟩)
        · exact ⟨[], List.nil_suffix, Glob.divides_nil.mpr rfl⟩
        · exact ⟨rest, (List.mem_tails _ _).mp hrest, ih.mp hmatch⟩
      · rintro ⟨rest, hrest, hdiv⟩
        exact Or.inr ⟨rest, (List.mem_tails _ _).mpr hrest, ih.mpr hdiv⟩
    · have hspans : ¬ Spans first := hany
      rw [Glob.divides_one hspans]
      cases path with
      | nil => simp [matchSegments]
      | cons head tail =>
        rw [matchSegments, Bool.and_eq_true, (matchSegment_spec first head).2, ih]
        · constructor
          · exact fun ⟨htakes, hdiv⟩ => ⟨head, tail, rfl, htakes, hdiv⟩
          · rintro ⟨_, _, heq, htakes, hdiv⟩
            cases heq
            exact ⟨htakes, hdiv⟩
        · exact hany

/-- A path less all the `./` before it. -/
def Stripped (path : String) (rest : List Char) : Prop :=
  ¬ "./".toList <+: rest ∧ ∃ k, path.toList = (List.replicate k "./".toList).flatten ++ rest

/-- What is between the separators. -/
def between (cs : List Char) : List String := (cs.splitOn '/').map String.ofList

/-- The pattern covers the path: each `**` takes any number of its segments, every other segment of
the pattern takes one. -/
def Covers (pattern path : String) : Prop :=
  ∃ pat rest, Stripped (Text.trim pattern) pat ∧ Stripped path rest ∧
    Glob.Divides Spans Takes (between pat) (between rest)

theorem stripped_iff {path : String} {rest : List Char} :
    Stripped path rest ↔ Text.dropAll "./".toList path.length path.toList = rest := by
  constructor
  · rintro ⟨hend, k, hk⟩
    have hlen := congrArg List.length hk
    rw [String.length_toList, List.length_append, List.length_flatten, List.map_replicate,
      List.sum_replicate_nat, show "./".toList.length = 2 from rfl] at hlen
    rw [hk]
    apply Text.dropAll_flatten hend k
    omega
  · rintro rfl
    exact Text.dropAll_spec (by decide) (Nat.le_of_eq String.length_toList)

/-- **A path is matched if and only if the pattern covers it**; every loop over a segment ends. -/
theorem pathMatches_iff_covers (pattern path : String) :
    (∀ pat text : String, Ends ⟨pat.toList, text.toList, none⟩ (matchSegment pat text)) ∧
      (pathMatches pattern path = true ↔ Covers pattern path) := by
  refine ⟨fun pat text => (matchSegment_spec pat text).1, ?_⟩
  rw [pathMatches, matchSegments_iff]
  constructor
  · exact fun h => ⟨_, _, stripped_iff.mpr rfl, stripped_iff.mpr rfl, h⟩
  · rintro ⟨pat, rest, hpat, hrest, h⟩
    rw [stripped_iff] at hpat hrest
    rw [segments, segments, hpat, hrest]
    exact h

end HeyoCi.Paths
