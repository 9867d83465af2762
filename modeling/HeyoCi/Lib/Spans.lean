import HeyoCi.Lib.Placeholders
import Mathlib.Data.List.ReduceOption

/-!
# Words of a text that are replaced by a marker

* `Block`: a letter of a text, or a word of it that is replaced; `sourceOf`, `shown`: the text, and what
  is shown of it;
* `takeWord`, `takeAll`: the occurrences of a word among the letters, and of several words one after the
  other; `sourceOf_takeWord`: the text stays;
* `Touches`: a word is found where a marker is; `not_touches_of_avoids`;
* **`shown_takeWord`**, **`shown_takeAll`**: replacing a word in what is shown is to take it among the
  letters, if it touches no marker;
* `flagged`, `regions`, `Redacts`: positions that are covered, the longest runs of them, and texts in
  which each of these is some markers;
* **`redacts_of_uncovered`**: what is shown is such a text if no letter is covered;
* `leftover`, **`countP_shown`**: the covered letters that are shown, and a count of all letters;
* **`uncovered_of_redacts`**: what is shown is such a text only if no letter is covered, where letters of
  the marker are not.
-/

universe u

namespace Words

variable {α : Type u}

/-- A letter of a text, or a word of it that is replaced. -/
inductive Block (α : Type u) where
  | letter (c : α)
  | span (w : List α)
  deriving Repr, DecidableEq

def Block.source : Block α → List α
  | letter c => [c]
  | span w => w

def Block.shown (marker : List α) : Block α → List α
  | letter c => [c]
  | span _ => marker

/-- The text. -/
def sourceOf (bs : List (Block α)) : List α := bs.flatMap Block.source

/-- The text with a marker in place of every word that is replaced. -/
def shown (marker : List α) (bs : List (Block α)) : List α := bs.flatMap (Block.shown marker)

/-- A text none of which is replaced. -/
def letters (xs : List α) : List (Block α) := xs.map .letter

variable {marker w : List α} {bs : List (Block α)}

theorem sourceOf_cons (b : Block α) (bs : List (Block α)) :
    sourceOf (b :: bs) = b.source ++ sourceOf bs := rfl

theorem sourceOf_letter (c : α) (bs : List (Block α)) :
    sourceOf (.letter c :: bs) = c :: sourceOf bs := rfl

theorem sourceOf_span (w : List α) (bs : List (Block α)) :
    sourceOf (.span w :: bs) = w ++ sourceOf bs := rfl

theorem shown_letter (c : α) (bs : List (Block α)) :
    shown marker (.letter c :: bs) = c :: shown marker bs := rfl

theorem shown_span (w : List α) (bs : List (Block α)) :
    shown marker (.span w :: bs) = marker ++ shown marker bs := rfl

theorem sourceOf_append (as bs : List (Block α)) :
    sourceOf (as ++ bs) = sourceOf as ++ sourceOf bs := List.flatMap_append

theorem shown_append (as bs : List (Block α)) :
    shown marker (as ++ bs) = shown marker as ++ shown marker bs := List.flatMap_append

theorem sourceOf_letters (xs : List α) : sourceOf (letters xs) = xs :=
  (List.flatMap_map ..).trans (List.flatMap_singleton' xs)

theorem shown_letters (xs : List α) : shown marker (letters xs) = xs :=
  (List.flatMap_map ..).trans (List.flatMap_singleton' xs)

theorem letters_ne_nil (h : w ≠ []) : letters w ≠ [] := by simpa [letters] using h

/-! ## Words among the letters -/

section Take

variable [DecidableEq α]

/-- The occurrences of a word among the letters, from the left and without an overlap. -/
def takeWord (w : List α) (bs : List (Block α)) : List (Block α) :=
  replaceAll (letters w) [.span w] bs

/-- The occurrences of several words, one word after the other. -/
def takeAll (ws : List (List α)) (bs : List (Block α)) : List (Block α) :=
  ws.foldl (fun bs w => takeWord w bs) bs

variable {v : List α}

theorem sourceOf_takeWord (hne : w ≠ []) (bs : List (Block α)) :
    sourceOf (takeWord w bs) = sourceOf bs := by
  unfold takeWord
  induction bs using occurrences_rec (letters_ne_nil hne) with
  | nil => rfl
  | hit bs ih =>
    rw [replaceAll_append (letters_ne_nil hne), sourceOf_append, sourceOf_append, sourceOf_letters, ih]
    exact congrArg (· ++ sourceOf bs) (List.append_nil w)
  | miss b bs hpre ih =>
    rw [replaceAll_cons hpre]
    exact congrArg (b.source ++ ·) ih

theorem span_of_mem_takeWord (hne : w ≠ []) (h : .span v ∈ takeWord w bs) :
    v = w ∨ .span v ∈ bs := by
  unfold takeWord at h
  induction bs using occurrences_rec (letters_ne_nil hne) with
  | nil => exact Or.inr h
  | hit bs ih =>
    rw [replaceAll_append (letters_ne_nil hne)] at h
    rcases List.mem_cons.mp h with heq | h
    · exact Or.inl (Block.span.inj heq)
    · exact (ih h).imp_right (List.mem_append_right _)
  | miss b bs hpre ih =>
    rw [replaceAll_cons hpre] at h
    rcases List.mem_cons.mp h with rfl | h
    · exact Or.inr List.mem_cons_self
    · exact (ih h).imp_right (List.mem_cons_of_mem b)

/-! ## Markers -/

omit [DecidableEq α] in
variable (marker w bs) in
/-- A word is found in what is shown at a place that takes in a letter of a marker. -/
def Touches : Prop :=
  ∃ pre v post s t, bs = pre ++ .span v :: post ∧ shown marker bs = s ++ (w ++ t) ∧
    s.length < (shown marker pre).length + marker.length ∧
    (shown marker pre).length < s.length + w.length

omit [DecidableEq α] in
/-- A word without a letter of the marker touches none. -/
theorem not_touches_of_avoids (hne : w ≠ []) (hmarker : marker ≠ []) (hw : Avoids w marker) :
    ¬ Touches marker w bs := by
  rintro ⟨pre, v, post, s, t, rfl, hshown, hleft, hright⟩
  have hwpos := List.length_pos_of_ne_nil hne
  have hmpos := List.length_pos_of_ne_nil hmarker
  -- a place that belongs to both
  obtain ⟨i, hi⟩ : ∃ i, i = max s.length (shown marker pre).length := ⟨_, rfl⟩
  have hsplit : shown marker (pre ++ .span v :: post) =
      shown marker pre ++ (marker ++ shown marker post) := shown_append ..
  have hw' : i - s.length < w.length := by omega
  have hm : i - (shown marker pre).length < marker.length := by omega
  have hleft : (s ++ (w ++ t))[i]? = some (w[i - s.length]) := by
    rw [List.getElem?_append_right (by omega), List.getElem?_append_left hw']
    exact List.getElem?_eq_getElem hw'
  have hright : (shown marker pre ++ (marker ++ shown marker post))[i]? =
      some (marker[i - (shown marker pre).length]) := by
    rw [List.getElem?_append_right (by omega), List.getElem?_append_left hm]
    exact List.getElem?_eq_getElem hm
  rw [← hsplit, hshown, hleft, Option.some.injEq] at hright
  exact hw _ (List.getElem_mem hw') (hright ▸ List.getElem_mem hm)

omit [DecidableEq α] in
theorem Touches.cons (b : Block α) (h : Touches marker w bs) : Touches marker w (b :: bs) := by
  obtain ⟨pre, v, post, s, t, rfl, hshown, hleft, hright⟩ := h
  have hcons : ∀ cs, shown marker (b :: cs) = b.shown marker ++ shown marker cs := fun _ => rfl
  refine ⟨b :: pre, v, post, b.shown marker ++ s, t, rfl, ?_, ?_, ?_⟩
  · rw [hcons, hshown, List.append_assoc]
  · rw [hcons, List.length_append, List.length_append]
    omega
  · rw [hcons, List.length_append, List.length_append]
    omega

omit [DecidableEq α] in
theorem Touches.append (as : List (Block α)) (h : Touches marker w bs) :
    Touches marker w (as ++ bs) := by
  induction as with
  | nil => exact h
  | cons b as ih => exact ih.cons b

omit [DecidableEq α] in
/-- A word that what is shown begins with, before all markers, is there among the letters. -/
theorem letters_begin (h : w <+: shown marker bs)
    (hfar : ∀ pre v post, bs = pre ++ .span v :: post → w.length ≤ (shown marker pre).length) :
    letters w <+: bs := by
  induction w generalizing bs with
  | nil => exact List.nil_prefix
  | cons c w ih =>
    cases bs with
    | nil => exact absurd (List.prefix_nil.mp h) (List.cons_ne_nil c w)
    | cons b bs =>
      cases b with
      | span v => exact absurd (hfar [] v bs rfl) (by simp [shown])
      | letter d =>
        obtain ⟨rfl, hw⟩ := List.cons_prefix_cons.mp h
        refine List.cons_prefix_cons.mpr ⟨rfl, ih hw fun pre v post hbs => ?_⟩
        exact Nat.le_of_succ_le_succ (hfar (.letter c :: pre) v post (by rw [hbs]; rfl))

omit [DecidableEq α] in
/-- A word that touches no marker is before all of them where what is shown begins with it. -/
theorem far_of_not_touches (hmarker : marker ≠ []) (h : w <+: shown marker bs)
    (htouch : ¬ Touches marker w bs) :
    ∀ pre v post, bs = pre ++ .span v :: post → w.length ≤ (shown marker pre).length := by
  intro pre v post hbs
  obtain ⟨t, ht⟩ := h
  by_contra hlt
  have hpos := List.length_pos_of_ne_nil hmarker
  refine htouch ⟨pre, v, post, [], t, hbs, ht.symm, ?_, ?_⟩
  · rw [List.length_nil]
    omega
  · rw [List.length_nil]
    omega

/-- No word begins in a marker that it does not touch. -/
theorem replaceAll_marker (hne : w ≠ []) (htouch : ¬ Touches marker w (.span v :: bs)) :
    replaceAll w marker (marker ++ shown marker bs) = marker ++ replaceAll w marker (shown marker bs) := by
  have hskip : ∀ as cs, as ++ cs = marker →
      replaceAll w marker (cs ++ shown marker bs) = cs ++ replaceAll w marker (shown marker bs) := by
    intro as cs
    induction cs generalizing as with
    | nil => exact fun _ => rfl
    | cons c cs ih =>
      intro hmarker
      have hrest := ih (as ++ [c]) (by rw [List.append_assoc, List.singleton_append, hmarker])
      rw [List.cons_append, replaceAll_cons, hrest, List.cons_append]
      rintro ⟨t, ht⟩
      have hshown : shown marker (.span v :: bs) = as ++ (w ++ t) := by
        rw [shown_span, ht, ← hmarker, List.append_assoc, List.cons_append]
      have hwpos := List.length_pos_of_ne_nil hne
      refine htouch ⟨[], v, bs, as, t, rfl, hshown, ?_, ?_⟩
      · rw [← hmarker]
        simp [shown]
      · simp only [shown, List.flatMap_nil, List.length_nil]
        omega
  exact hskip [] marker rfl

/-- **Replacing a word that touches no marker is to take it among the letters.** -/
theorem shown_takeWord (hne : w ≠ []) (hmarker : marker ≠ []) (htouch : ¬ Touches marker w bs) :
    replaceAll w marker (shown marker bs) = shown marker (takeWord w bs) := by
  unfold takeWord
  induction bs using occurrences_rec (letters_ne_nil hne) with
  | nil => rfl
  | hit bs ih =>
    have hrest : ¬ Touches marker w bs := fun h => htouch (h.append (letters w))
    rw [shown_append, shown_letters, replaceAll_append hne, replaceAll_append (letters_ne_nil hne),
      shown_append, ih hrest]
    exact congrArg (· ++ shown marker _) (List.append_nil marker).symm
  | miss b bs hpre ih =>
    have hrest := ih fun h => htouch (h.cons b)
    rw [replaceAll_cons hpre]
    cases b with
    | span v => rw [shown_span, shown_span, replaceAll_marker hne htouch, hrest]
    | letter c =>
      rw [shown_letter, shown_letter, replaceAll_cons, hrest]
      exact fun h => hpre (letters_begin h (far_of_not_touches hmarker h htouch))

/-- **Several words, none of which touches a marker that those before it have left.** -/
theorem shown_takeAll (hmarker : marker ≠ []) {ws : List (List α)} (hne : ∀ w ∈ ws, w ≠ [])
    (htouch : ∀ pre w post, ws = pre ++ w :: post → ¬ Touches marker w (takeAll pre bs)) :
    replaceEach marker ws (shown marker bs) = shown marker (takeAll ws bs) := by
  induction ws generalizing bs with
  | nil => rfl
  | cons w ws ih =>
    have hword : ¬ Touches marker w bs := htouch [] w ws rfl
    have hfirst := shown_takeWord (hne w List.mem_cons_self) hmarker hword
    have hrest : replaceEach marker ws (shown marker (takeWord w bs)) = _ :=
      ih (fun v hv => hne v (List.mem_cons_of_mem w hv))
        fun pre v post hws => htouch (w :: pre) v post (by rw [hws]; rfl)
    change replaceEach marker ws (replaceAll w marker (shown marker bs)) = _
    rw [hfirst, hrest]
    rfl

theorem sourceOf_takeAll {ws : List (List α)} (hne : ∀ w ∈ ws, w ≠ []) (bs : List (Block α)) :
    sourceOf (takeAll ws bs) = sourceOf bs := by
  induction ws generalizing bs with
  | nil => rfl
  | cons w ws ih =>
    exact (ih (fun v hv => hne v (List.mem_cons_of_mem w hv)) _).trans
      (sourceOf_takeWord (hne w List.mem_cons_self) bs)

theorem span_of_mem_takeAll {ws : List (List α)} (hne : ∀ w ∈ ws, w ≠ [])
    (h : .span v ∈ takeAll ws bs) : v ∈ ws ∨ .span v ∈ bs := by
  induction ws generalizing bs with
  | nil => exact Or.inr h
  | cons w ws ih =>
    rcases ih (fun v hv => hne v (List.mem_cons_of_mem w hv)) h with hmem | hspan
    · exact Or.inl (List.mem_cons_of_mem w hmem)
    · rcases span_of_mem_takeWord (hne w List.mem_cons_self) hspan with rfl | hspan
      · exact Or.inl List.mem_cons_self
      · exact Or.inr hspan

end Take

/-! ## Covered positions -/

/-- A text from a position on, each letter with whether its position is covered. -/
def flagged (covered : Nat → Bool) : Nat → List α → List (α × Bool)
  | _, [] => []
  | i, x :: xs => (x, covered i) :: flagged covered (i + 1) xs

/-- The letters that are not covered, and one mark for every longest run of letters that are. -/
def regions : List (α × Bool) → List (Option α)
  | [] => []
  | (x, false) :: rest => some x :: regions rest
  | (_, true) :: rest =>
    if (rest.head?.map Prod.snd).getD false then regions rest else none :: regions rest

/-- A text with one marker or more in place of every mark. -/
inductive Redacts (marker : List α) : List (Option α) → List α → Prop
  | nil : Redacts marker [] []
  | keep {x : α} {m : List (Option α)} {out : List α} (h : Redacts marker m out) :
    Redacts marker (some x :: m) (x :: out)
  | one {m : List (Option α)} {out : List α} (h : Redacts marker m out) :
    Redacts marker (none :: m) (marker ++ out)
  | more {m : List (Option α)} {out : List α} (h : Redacts marker (none :: m) out) :
    Redacts marker (none :: m) (marker ++ out)

variable {covered : Nat → Bool} {i : Nat} {xs ys : List α}

theorem flagged_append (xs ys : List α) : flagged covered i (xs ++ ys) =
    flagged covered i xs ++ flagged covered (i + xs.length) ys := by
  induction xs generalizing i with
  | nil => rfl
  | cons x xs ih =>
    rw [List.cons_append, flagged, flagged, ih, List.cons_append, List.length_cons,
      Nat.add_right_comm, Nat.add_assoc]

theorem regions_covered {w : List α} (hw : w ≠ []) (rest : List (α × Bool)) :
    regions (w.map (·, true) ++ rest) =
      if (rest.head?.map Prod.snd).getD false then regions rest else none :: regions rest := by
  induction w with
  | nil => exact absurd rfl hw
  | cons x w ih =>
    cases w with
    | nil => rfl
    | cons y w => exact ih (List.cons_ne_nil y w)

/-- A text that begins with a covered letter has a mark first. -/
theorem regions_head {rest : List (α × Bool)} (h : (rest.head?.map Prod.snd).getD false = true) :
    ∃ m, regions rest = none :: m := by
  induction rest with
  | nil => cases h
  | cons p rest ih =>
    obtain ⟨x, b⟩ := p
    obtain rfl : b = true := h
    rw [regions]
    split_ifs with hrest
    · exact ih hrest
    · exact ⟨_, rfl⟩

theorem flagged_covered {w : List α} (h : ∀ j < w.length, covered (i + j) = true) :
    flagged covered i w = w.map (·, true) := by
  induction w generalizing i with
  | nil => rfl
  | cons x w ih =>
    have hx : covered i = true := h 0 (Nat.succ_pos _)
    rw [flagged, hx, List.map_cons, ih fun j hj => ?_]
    rw [Nat.add_assoc, Nat.add_comm 1 j]
    exact h (j + 1) (Nat.succ_lt_succ hj)

/-- Words that are replaced are covered. -/
def SpansCovered (covered : Nat → Bool) (i : Nat) (bs : List (Block α)) : Prop :=
  ∀ pre w post, bs = pre ++ .span w :: post →
    w ≠ [] ∧ ∀ j < w.length, covered (i + (sourceOf pre).length + j) = true

/-- Letters that are left are not covered. -/
def LettersUncovered (covered : Nat → Bool) (i : Nat) (bs : List (Block α)) : Prop :=
  ∀ pre x post, bs = pre ++ .letter x :: post → covered (i + (sourceOf pre).length) = false

variable {b : Block α}

theorem SpansCovered.tail (h : SpansCovered covered i (b :: bs)) :
    SpansCovered covered (i + b.source.length) bs := by
  intro pre w post hbs
  have hb := h (b :: pre) w post (by rw [hbs]; rfl)
  rwa [sourceOf_cons, List.length_append, ← Nat.add_assoc] at hb

theorem LettersUncovered.tail (h : LettersUncovered covered i (b :: bs)) :
    LettersUncovered covered (i + b.source.length) bs := by
  intro pre x post hbs
  have hb := h (b :: pre) x post (by rw [hbs]; rfl)
  rwa [sourceOf_cons, List.length_append, ← Nat.add_assoc] at hb

/-- **What is shown of a text without covered letters has one marker or more in every region.** -/
theorem redacts_of_uncovered (hspans : SpansCovered covered i bs)
    (hletters : LettersUncovered covered i bs) :
    Redacts marker (regions (flagged covered i (sourceOf bs))) (shown marker bs) := by
  induction bs generalizing i with
  | nil => exact .nil
  | cons b bs ih =>
    have ih := ih hspans.tail hletters.tail
    cases b with
    | letter x =>
      have hx : covered i = false := hletters [] x bs rfl
      rw [sourceOf_letter, shown_letter, flagged, hx, regions]
      exact .keep ih
    | span w =>
      obtain ⟨hw, hcovered⟩ := hspans [] w bs rfl
      have hcovered : ∀ j < w.length, covered (i + j) = true := hcovered
      rw [sourceOf_span, shown_span, flagged_append, flagged_covered hcovered, regions_covered hw]
      split_ifs with hhead
      · obtain ⟨m, hm⟩ := regions_head hhead
        have ih : Redacts marker (regions (flagged covered (i + w.length) (sourceOf bs))) _ := ih
        rw [hm] at ih ⊢
        exact .more ih
      · exact .one ih

/-! ## Letters that are no letters of the marker -/

variable {p : α → Bool}

theorem countP_marker (hp : ∀ x ∈ marker, p x = false) : marker.countP p = 0 := by
  rw [List.countP_eq_zero]
  intro x hx
  rw [hp x hx]
  exact Bool.false_ne_true

theorem Redacts.countP_eq (hp : ∀ x ∈ marker, p x = false) {m : List (Option α)} {out : List α}
    (h : Redacts marker m out) : out.countP p = m.reduceOption.countP p := by
  have hmarker := countP_marker hp
  induction h with
  | nil => rfl
  | keep _ ih => rw [List.reduceOption_cons_of_some, List.countP_cons, List.countP_cons, ih]
  | one _ ih => rw [List.countP_append, hmarker, Nat.zero_add, ih, List.reduceOption_cons_of_none]
  | more _ ih => rw [List.countP_append, hmarker, Nat.zero_add, ih]

/-- The letters that are not covered. -/
def bare (f : List (α × Bool)) : List α := (f.filter fun q => !q.2).map Prod.fst

theorem reduceOption_regions (f : List (α × Bool)) : (regions f).reduceOption = bare f := by
  induction f with
  | nil => rfl
  | cons q f ih =>
    obtain ⟨x, b⟩ := q
    cases b with
    | false => rw [regions, List.reduceOption_cons_of_some, ih]; rfl
    | true =>
      rw [regions]
      split_ifs
      · exact ih
      · rw [List.reduceOption_cons_of_none]
        exact ih

theorem bare_cons (x : α) (b : Bool) (f : List (α × Bool)) :
    bare ((x, b) :: f) = if b then bare f else x :: bare f := by
  cases b <;> rfl

theorem bare_append (f g : List (α × Bool)) : bare (f ++ g) = bare f ++ bare g := by
  rw [bare, List.filter_append, List.map_append]
  rfl

theorem bare_covered (w : List α) : bare (w.map (·, true)) = [] := by
  induction w with
  | nil => rfl
  | cons x w ih => exact ih

/-- The covered letters that are shown. -/
def leftover (covered : Nat → Bool) : Nat → List (Block α) → List α
  | _, [] => []
  | i, .letter x :: bs => if covered i then x :: leftover covered (i + 1) bs
    else leftover covered (i + 1) bs
  | i, .span w :: bs => leftover covered (i + w.length) bs

theorem leftover_tail (b : Block α) {x : α} (h : x ∈ leftover covered (i + b.source.length) bs) :
    x ∈ leftover covered i (b :: bs) := by
  cases b with
  | span w => exact h
  | letter y =>
    rw [leftover]
    split_ifs
    · exact List.mem_cons_of_mem y h
    · exact h

theorem mem_leftover {pre post : List (Block α)} {x : α}
    (h : covered (i + (sourceOf pre).length) = true) :
    x ∈ leftover covered i (pre ++ .letter x :: post) := by
  induction pre generalizing i with
  | nil =>
    have hx : covered i = true := h
    rw [List.nil_append, leftover, if_pos hx]
    exact List.mem_cons_self
  | cons b pre ih =>
    rw [sourceOf_cons, List.length_append, ← Nat.add_assoc] at h
    exact leftover_tail b (ih h)

/-- **The letters that are shown are those that are not covered, and those that are left over.** -/
theorem countP_shown (hp : ∀ x ∈ marker, p x = false) (hspans : SpansCovered covered i bs) :
    (shown marker bs).countP p =
      (bare (flagged covered i (sourceOf bs))).countP p + (leftover covered i bs).countP p := by
  induction bs generalizing i with
  | nil => rfl
  | cons b bs ih =>
    have ih := ih hspans.tail
    cases b with
    | span w =>
      obtain ⟨-, hcovered⟩ := hspans [] w bs rfl
      have hcovered : ∀ j < w.length, covered (i + j) = true := hcovered
      rw [shown_span, List.countP_append, countP_marker hp, Nat.zero_add, ih, sourceOf_span,
        flagged_append, flagged_covered hcovered, bare_append, bare_covered, List.nil_append, leftover]
      rfl
    | letter x =>
      have ih : (shown marker bs).countP p = (bare (flagged covered (i + 1) (sourceOf bs))).countP p +
        (leftover covered (i + 1) bs).countP p := ih
      rw [shown_letter, List.countP_cons, ih, sourceOf_letter, flagged, bare_cons, leftover]
      -- the letter is counted on the right where it is not covered, or as one that is left over
      by_cases hx : covered i = true
      · rw [if_pos hx, if_pos hx, List.countP_cons, Nat.add_assoc]
      · rw [if_neg hx, if_neg hx, List.countP_cons, Nat.add_right_comm]

/-- **No letter is covered in what is shown if it has markers in every region and all letters besides**,
where no letter that is covered may be one of the marker. -/
theorem uncovered_of_redacts (hp : ∀ x ∈ marker, p x = false) (hspans : SpansCovered covered i bs)
    (hletters : ∀ pre x post, bs = pre ++ .letter x :: post →
      covered (i + (sourceOf pre).length) = true → p x = true)
    (h : Redacts marker (regions (flagged covered i (sourceOf bs))) (shown marker bs)) :
    LettersUncovered covered i bs := by
  intro pre x post hbs
  have hcount := h.countP_eq hp
  rw [reduceOption_regions, countP_shown hp hspans, Nat.add_eq_left, List.countP_eq_zero] at hcount
  by_contra hcovered
  rw [Bool.not_eq_false] at hcovered
  have hmem : x ∈ leftover covered i bs := hbs ▸ mem_leftover hcovered
  exact hcount x hmem (hletters pre x post hbs hcovered)

end Words
