import Mathlib.Data.List.Basic
import Mathlib.Data.List.Forall2
import Mathlib.Tactic.SplitIfs

/-!
# Words and their replacement

* `split_inj`: a separator that is in neither of two words splits both texts at one place, and
  `last_split_inj`: so does the last letter of a kind;
* `Straddles`, `infix_frame_iff`: where a word occurs in a text between two others;
  `infix_append_cons`: a word without a letter occurs on one side of it;
* `replaceFrom`, `replaceAll`: the leftmost occurrences of a pattern, replaced by a marker;
* `infix_of_replaceFrom`: what is in the result and has no letter of the marker was in the text;
* **`not_infix_replaceAll`**: a pattern without a letter of the marker is not in the result;
* `replaceEach`: the same for several patterns, one after the other; a text without them is kept;
* `flatMap_congr_of_filter`, **`flatMap_ne_of_filter`**: texts put together of parts that are the
  same, and of parts one of which is not;
* `fold`, `FoldsAlike`: letters kept or replaced by one letter; **`map_fold_eq_iff`**.
-/

universe u

namespace Words

variable {α : Type u}

/-- Two words have no letter in common. -/
def Avoids (w marker : List α) : Prop := ∀ c ∈ w, c ∉ marker

theorem split_inj {a : α} {xs xs' ys ys' : List α} (h : xs ++ a :: ys = xs' ++ a :: ys')
    (hx : a ∉ xs) (hx' : a ∉ xs') : xs = xs' ∧ ys = ys' := by
  induction xs generalizing xs' with
  | nil =>
    cases xs' with
    | nil => simpa using h
    | cons x' xs' =>
      simp only [List.nil_append, List.cons_append, List.cons.injEq] at h
      exact absurd (h.1 ▸ List.mem_cons_self) hx'
  | cons x xs ih =>
    cases xs' with
    | nil =>
      simp only [List.nil_append, List.cons_append, List.cons.injEq] at h
      exact absurd (h.1 ▸ List.mem_cons_self) hx
    | cons x' xs' =>
      simp only [List.cons_append, List.cons.injEq] at h
      have hrest := ih h.2 (fun hm => hx (List.mem_cons_of_mem x hm))
        fun hm => hx' (List.mem_cons_of_mem x' hm)
      rw [h.1, hrest.1, hrest.2]
      exact ⟨rfl, rfl⟩

/-- The last letter without a property splits a text at one place. -/
theorem last_split_inj {p : α → Prop} {a a' : α} {xs xs' ys ys' : List α}
    (h : xs ++ a :: ys = xs' ++ a' :: ys') (ha : ¬ p a) (ha' : ¬ p a') (hy : ∀ c ∈ ys, p c)
    (hy' : ∀ c ∈ ys', p c) : xs = xs' ∧ a = a' ∧ ys = ys' := by
  rcases List.append_eq_append_iff.mp h with ⟨zs, hxs, hzs⟩ | ⟨zs, hxs, hzs⟩
  · cases zs with
    | nil =>
      obtain ⟨rfl, rfl⟩ := List.cons.inj hzs
      exact ⟨by rw [hxs, List.append_nil], rfl, rfl⟩
    | cons z zs =>
      obtain ⟨-, hys⟩ := List.cons.inj hzs
      exact absurd (hy a' (by rw [hys]; simp)) ha'
  · cases zs with
    | nil =>
      obtain ⟨rfl, rfl⟩ := List.cons.inj hzs
      exact ⟨by rw [hxs, List.append_nil], rfl, rfl⟩
    | cons z zs =>
      obtain ⟨-, hys⟩ := List.cons.inj hzs
      exact absurd (hy' a (by rw [hys]; simp)) ha

/-! ## Occurrences in a frame -/

/-- `w` occurs in `l ++ m ++ r` at a place that takes in a letter of `l` or of `r`. -/
def Straddles (l m r w : List α) : Prop :=
  ∃ s t, l ++ m ++ r = s ++ w ++ t ∧ (s.length < l.length ∨ t.length < r.length)

/-- A word occurs in a framed text inside the frame or across it. -/
theorem infix_frame_iff {l m r w : List α} :
    w <:+: l ++ m ++ r ↔ w <:+: m ∨ Straddles l m r w := by
  constructor
  · rintro ⟨s, t, h⟩
    by_cases hs : s.length < l.length
    · exact Or.inr ⟨s, t, h.symm, Or.inl hs⟩
    by_cases ht : t.length < r.length
    · exact Or.inr ⟨s, t, h.symm, Or.inr ht⟩
    refine Or.inl ?_
    have hl : l <+: l ++ m ++ r := ⟨m ++ r, (List.append_assoc l m r).symm⟩
    have hsl : s <+: l ++ m ++ r := ⟨w ++ t, (List.append_assoc s w t).symm.trans h⟩
    obtain ⟨s', rfl⟩ := List.prefix_of_prefix_length_le hl hsl (by omega)
    have hr : r <:+ l ++ m ++ r := ⟨l ++ m, rfl⟩
    obtain ⟨t', rfl⟩ := List.suffix_of_suffix_length_le hr ⟨l ++ s' ++ w, h⟩ (by omega)
    refine ⟨s', t', ?_⟩
    have hin : l ++ (s' ++ w ++ t') = l ++ m := by simpa [← List.append_assoc] using h
    exact List.append_cancel_left hin
  · rintro (⟨s, t, rfl⟩ | ⟨s, t, h, -⟩)
    · exact ⟨l ++ s, t ++ r, by simp⟩
    · exact ⟨s, t, h.symm⟩

/-- A word without a letter occurs on one side of it. -/
theorem infix_append_cons {pat as bs : List α} {x : α} (hx : x ∉ pat)
    (h : pat <:+: as ++ x :: bs) : pat <:+: as ∨ pat <:+: bs := by
  have hstart : ∀ as : List α, pat <+: as ++ x :: bs → pat <+: as := by
    intro as hp
    rcases List.prefix_or_prefix_of_prefix hp (List.prefix_append as (x :: bs)) with hp' | ⟨t, rfl⟩
    · exact hp'
    · rw [List.prefix_append_right_inj] at hp
      cases t with
      | nil => exact ⟨[], by rw [List.append_nil, List.append_nil]⟩
      | cons y t =>
        obtain ⟨rfl, -⟩ := List.cons_prefix_cons.mp hp
        exact absurd (List.mem_append_right _ List.mem_cons_self) hx
  induction as with
  | nil =>
    rcases List.infix_cons_iff.mp h with hp | hin
    · exact Or.inl (hstart [] hp).isInfix
    · exact Or.inr hin
  | cons a as ih =>
    rw [List.cons_append] at h
    rcases List.infix_cons_iff.mp h with hp | hin
    · exact Or.inl (hstart (a :: as) hp).isInfix
    · exact (ih hin).imp_left fun h => h.trans (List.suffix_cons a as).isInfix

/-! ## Occurrences next to a marker -/

theorem eq_nil_of_prefix_append {w marker rest : List α} (hw : Avoids w marker) (hne : marker ≠ [])
    (h : w <+: marker ++ rest) : w = [] := by
  cases w with
  | nil => rfl
  | cons c w =>
    cases marker with
    | nil => exact absurd rfl hne
    | cons d marker =>
      obtain ⟨t, ht⟩ := h
      simp only [List.cons_append, List.cons.injEq] at ht
      exact absurd (ht.1 ▸ List.mem_cons_self) (hw c List.mem_cons_self)

/-- A word without a letter of the marker does not begin in the marker. -/
theorem infix_of_marker_append {w marker rest : List α} (hw : Avoids w marker)
    (h : w <:+: marker ++ rest) : w = [] ∨ w <:+: rest := by
  induction marker with
  | nil => exact Or.inr h
  | cons d marker ih =>
    rcases List.infix_cons_iff.mp h with hpre | hin
    · exact Or.inl (eq_nil_of_prefix_append hw (by simp) hpre)
    · exact ih (fun c hc hm => hw c hc (List.mem_cons_of_mem d hm)) hin

/-! ## One pattern -/

section Replace

variable [DecidableEq α] (pat marker : List α)

/-- Replace from a text whose first `skip` letters belong to an occurrence that is replaced. -/
def replaceFrom : Nat → List α → List α
  | _, [] => []
  | skip + 1, _ :: xs => replaceFrom skip xs
  | 0, x :: xs => if pat.isPrefixOf (x :: xs) then marker ++ replaceFrom (pat.length - 1) xs
    else x :: replaceFrom 0 xs

/-- Replace every occurrence, from the left and without an overlap. -/
def replaceAll (xs : List α) : List α := replaceFrom pat marker 0 xs

variable {pat marker}

theorem prefix_of_replaceFrom {w xs : List α} (hw : Avoids w marker) (hne : marker ≠ [])
    (h : w <+: replaceFrom pat marker 0 xs) : w <+: xs := by
  induction xs generalizing w with
  | nil => exact h
  | cons x xs ih =>
    rw [replaceFrom] at h
    split_ifs at h with hp
    · rw [eq_nil_of_prefix_append hw hne h]
      exact List.nil_prefix
    · cases w with
      | nil => exact List.nil_prefix
      | cons c w =>
        rw [List.cons_prefix_cons] at h ⊢
        exact ⟨h.1, ih (fun d hd => hw d (List.mem_cons_of_mem c hd)) h.2⟩

theorem infix_of_replaceFrom {w : List α} (hw : Avoids w marker) (hne : marker ≠ []) :
    ∀ {skip : Nat} {xs : List α}, w <:+: replaceFrom pat marker skip xs → w <:+: xs
  | skip, [], h => by
    rw [replaceFrom] at h
    exact h
  | skip + 1, x :: xs, h => by
    rw [replaceFrom] at h
    exact List.infix_cons (infix_of_replaceFrom hw hne h)
  | 0, x :: xs, h => by
    rw [replaceFrom] at h
    split_ifs at h with hp
    · rcases infix_of_marker_append hw h with rfl | h
      · exact List.nil_infix
      · exact List.infix_cons (infix_of_replaceFrom hw hne h)
    · rcases List.infix_cons_iff.mp h with hpre | hin
      · have hall : w <+: replaceFrom pat marker 0 (x :: xs) := by
          rw [replaceFrom, if_neg hp]
          exact hpre
        exact (prefix_of_replaceFrom hw hne hall).isInfix
      · exact List.infix_cons (infix_of_replaceFrom hw hne hin)

theorem not_infix_replaceFrom (hpat : Avoids pat marker) (hne : marker ≠ []) (hpne : pat ≠ []) :
    ∀ (skip : Nat) (xs : List α), ¬ pat <:+: replaceFrom pat marker skip xs
  | skip, [], h => by
    rw [replaceFrom, List.infix_nil] at h
    exact hpne h
  | skip + 1, x :: xs, h => by
    rw [replaceFrom] at h
    exact not_infix_replaceFrom hpat hne hpne skip xs h
  | 0, x :: xs, h => by
    rw [replaceFrom] at h
    split_ifs at h with hp
    · rcases infix_of_marker_append hpat h with h | h
      · exact hpne h
      · exact not_infix_replaceFrom hpat hne hpne _ xs h
    · rcases List.infix_cons_iff.mp h with hpre | hin
      · have hall : pat <+: replaceFrom pat marker 0 (x :: xs) := by
          rw [replaceFrom, if_neg hp]
          exact hpre
        exact hp (List.isPrefixOf_iff_prefix.mpr (prefix_of_replaceFrom hpat hne hall))
      · exact not_infix_replaceFrom hpat hne hpne 0 xs hin

/-- **A pattern that shares no letter with the marker does not occur after its replacement.** -/
theorem not_infix_replaceAll (hpat : Avoids pat marker) (hne : marker ≠ []) (hpne : pat ≠ [])
    (xs : List α) : ¬ pat <:+: replaceAll pat marker xs := not_infix_replaceFrom hpat hne hpne 0 xs

/-- A letter where no occurrence begins stays. -/
theorem replaceAll_cons {x : α} {xs : List α} (h : ¬ pat <+: x :: xs) :
    replaceAll pat marker (x :: xs) = x :: replaceAll pat marker xs := by
  rw [replaceAll, replaceFrom, if_neg (by rwa [List.isPrefixOf_iff_prefix])]
  rfl

/-- A text that does not have the pattern is kept. -/
theorem replaceAll_of_not_infix {xs : List α} (h : ¬ pat <:+: xs) :
    replaceAll pat marker xs = xs := by
  induction xs with
  | nil => rfl
  | cons x xs ih =>
    rw [replaceAll_cons fun hpre => h hpre.isInfix, ih fun hin => h (List.infix_cons hin)]

theorem infix_of_replaceAll {w xs : List α} (hw : Avoids w marker) (hne : marker ≠ [])
    (h : w <:+: replaceAll pat marker xs) : w <:+: xs := infix_of_replaceFrom hw hne h

/-! ## Several patterns -/

variable (marker) in
/-- Replace the patterns one after the other. -/
def replaceEach (pats : List (List α)) (xs : List α) : List α :=
  pats.foldl (fun out pat => replaceAll pat marker out) xs

theorem infix_of_replaceEach {w : List α} (hw : Avoids w marker) (hne : marker ≠ [])
    {pats : List (List α)} {xs : List α} (h : w <:+: replaceEach marker pats xs) : w <:+: xs := by
  induction pats generalizing xs with
  | nil => exact h
  | cons pat pats ih => exact infix_of_replaceAll hw hne (ih h)

/-- A text that has none of the patterns is kept. -/
theorem replaceEach_absent {pats : List (List α)} {xs : List α}
    (h : ∀ pat ∈ pats, ¬ pat <:+: xs) : replaceEach marker pats xs = xs := by
  induction pats with
  | nil => rfl
  | cons v pats ih =>
    have hv : replaceAll v marker xs = xs := replaceAll_of_not_infix (h v List.mem_cons_self)
    change replaceEach marker pats (replaceAll v marker xs) = xs
    rw [hv]
    exact ih fun pat hp => h pat (List.mem_cons_of_mem v hp)

/-- **None of the patterns that share no letter with the marker occurs in the end**, in whatever
order they are replaced. -/
theorem not_infix_replaceEach (hne : marker ≠ []) {pats : List (List α)} {pat : List α}
    (hmem : pat ∈ pats) (hpat : Avoids pat marker) (hpne : pat ≠ []) (xs : List α) :
    ¬ pat <:+: replaceEach marker pats xs := by
  induction pats generalizing xs with
  | nil => cases hmem
  | cons v pats ih =>
    rcases List.mem_cons.mp hmem with rfl | hm
    · intro h
      exact not_infix_replaceAll hpat hne hpne xs (infix_of_replaceEach hpat hne h)
    · exact ih hm (replaceAll v marker xs)

end Replace

/-! ## Texts of parts -/

section Parts

variable {β : Type u} [DecidableEq β] {f g : α → List β} {parts : List α}

theorem flatMap_congr_of_filter (h : parts.filter (fun p => f p ≠ g p) = []) :
    parts.flatMap f = parts.flatMap g := by
  refine List.flatMap_congr fun p hp => ?_
  simpa using List.filter_eq_nil_iff.mp h p hp

/-- **One part that differs makes the texts differ.** -/
theorem flatMap_ne_of_filter {p : α} (h : parts.filter (fun p => f p ≠ g p) = [p]) :
    parts.flatMap f ≠ parts.flatMap g := by
  obtain ⟨pre, post, rfl, hpre, hp, hpost⟩ := List.filter_eq_cons_iff.mp h
  have hsame : pre.flatMap f = pre.flatMap g := by
    refine List.flatMap_congr fun q hq => ?_
    simpa using hpre q hq
  rw [List.flatMap_append, List.flatMap_append, List.flatMap_cons, List.flatMap_cons, hsame,
    flatMap_congr_of_filter hpost, ne_eq, List.append_cancel_left_eq, List.append_cancel_right_eq]
  simpa using hp

end Parts

/-! ## Letters that become one -/

section Fold

variable (keep : α → Bool) (sep : α)

/-- A letter, or another one in its place. -/
def fold (c : α) : α := if keep c then c else sep

/-- Letters that become one. -/
def FoldsAlike (c d : α) : Prop := c = d ∨ ((keep c = false ∨ c = sep) ∧ (keep d = false ∨ d = sep))

instance [DecidableEq α] : DecidableRel (FoldsAlike keep sep) := fun _ _ => by
  unfold FoldsAlike; infer_instance

variable {keep sep}

theorem fold_of_keep {c : α} (h : keep c = true) : fold keep sep c = c := if_pos h

theorem fold_eq_sep {c : α} : fold keep sep c = sep ↔ keep c = false ∨ c = sep := by
  unfold fold
  split_ifs with h
  · simp [h]
  · simp [Bool.eq_false_iff.mpr h]

theorem fold_eq_iff (c d : α) : fold keep sep c = fold keep sep d ↔ FoldsAlike keep sep c d := by
  rw [FoldsAlike, ← fold_eq_sep, ← fold_eq_sep]
  constructor
  · intro h
    by_cases hc : keep c = true
    · by_cases hd : keep d = true
      · rw [fold_of_keep hc, fold_of_keep hd] at h
        exact Or.inl h
      · have hsep : fold keep sep d = sep := fold_eq_sep.mpr (Or.inl (Bool.eq_false_iff.mpr hd))
        exact Or.inr ⟨h.trans hsep, hsep⟩
    · have hsep : fold keep sep c = sep := fold_eq_sep.mpr (Or.inl (Bool.eq_false_iff.mpr hc))
      exact Or.inr ⟨hsep, h.symm.trans hsep⟩
  · rintro (rfl | ⟨hc, hd⟩)
    · rfl
    · rw [hc, hd]

/-- **Two texts become one exactly if they are as long as each other and alike letter by letter.** -/
theorem map_fold_eq_iff (xs ys : List α) :
    xs.map (fold keep sep) = ys.map (fold keep sep) ↔ List.Forall₂ (FoldsAlike keep sep) xs ys := by
  rw [← List.forall₂_eq_eq_eq, List.forall₂_map_left_iff, List.forall₂_map_right_iff]
  simp only [fold_eq_iff]

end Fold

end Words
