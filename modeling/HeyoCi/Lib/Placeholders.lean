import HeyoCi.Lib.Words

/-!
# Replacing a placeholder

A placeholder is a word whose first letter is not in the rest of it, so that two occurrences of it
never overlap.

* `replaceAll_append`: the text behind an occurrence; `occurrences_rec`: the induction over the
  occurrences and the letters between them;
* `put`: a text with marks, and a word in their place;
* **`replaceAll_put`**: replacing a word that stands in all marks replaces it in the marks and where it
  is in the text besides;
* **`replaceAll_put_iff`**: it replaces it in the marks only, exactly if it is not in the text besides.
-/

universe u

namespace Words

variable {α : Type u} [DecidableEq α] {pat marker xs : List α} {x : α}

/-! ## One step of a replacement -/

theorem replaceFrom_eq (skip : Nat) (xs : List α) :
    replaceFrom pat marker skip xs = replaceAll pat marker (xs.drop skip) := by
  induction xs generalizing skip with
  | nil =>
    rw [List.drop_nil]
    cases skip <;> rfl
  | cons x xs ih =>
    cases skip with
    | zero => rfl
    | succ skip => rw [replaceFrom, ih, List.drop_succ_cons]

/-- An occurrence at the beginning of a text is replaced. -/
theorem replaceAll_append (hne : pat ≠ []) (xs : List α) :
    replaceAll pat marker (pat ++ xs) = marker ++ replaceAll pat marker xs := by
  obtain ⟨p, ps, rfl⟩ := List.exists_cons_of_ne_nil hne
  have hpre : (p :: ps).isPrefixOf (p :: (ps ++ xs)) = true :=
    List.isPrefixOf_iff_prefix.mpr ⟨xs, rfl⟩
  rw [List.cons_append, replaceAll, replaceFrom, if_pos hpre, replaceFrom_eq]
  simp

/-- A text is empty, or begins with an occurrence of a word, or with a letter where none begins. -/
@[elab_as_elim]
theorem occurrences_rec {motive : List α → Prop} (hne : pat ≠ []) (nil : motive [])
    (hit : ∀ xs, motive xs → motive (pat ++ xs))
    (miss : ∀ x xs, ¬ pat <+: x :: xs → motive xs → motive (x :: xs)) (xs : List α) : motive xs := by
  induction hn : xs.length using Nat.strongRecOn generalizing xs with
  | _ n ih =>
    by_cases hpre : pat <+: xs
    · obtain ⟨ys, rfl⟩ := hpre
      have hlt : ys.length < n := by
        have hpos := List.length_pos_of_ne_nil hne
        rw [← hn, List.length_append]
        omega
      exact hit ys (ih _ hlt ys rfl)
    · cases xs with
      | nil => exact nil
      | cons x xs => exact miss x xs hpre (ih xs.length (by rw [← hn]; simp) xs rfl)

/-- To replace a word by itself changes nothing. -/
theorem replaceAll_self (hne : pat ≠ []) (xs : List α) : replaceAll pat pat xs = xs := by
  induction xs using occurrences_rec hne with
  | nil => rfl
  | hit xs ih => rw [replaceAll_append hne, ih]
  | miss x xs hpre ih => rw [replaceAll_cons hpre, ih]

/-! ## Texts with marks -/

/-- A text with a word in place of its marks. -/
def put (w : List α) (m : List (Option α)) : List α := m.flatMap fun o => o.elim w fun c => [c]

omit [DecidableEq α] in
theorem put_append (w : List α) (m n : List (Option α)) : put w (m ++ n) = put w m ++ put w n :=
  List.flatMap_append

omit [DecidableEq α] in
theorem put_cons (w : List α) (o : Option α) (m : List (Option α)) :
    put w (o :: m) = o.elim w (fun c => [c]) ++ put w m := List.flatMap_cons

omit [DecidableEq α] in
theorem put_map_some (w xs : List α) : put w (xs.map some) = xs := by
  rw [put, List.flatMap_map]
  exact List.flatMap_singleton' xs

variable {l : α} {q t : List α} {m : List (Option α)}

omit [DecidableEq α] in
/-- A word without the first letter of the placeholder begins in no mark. -/
theorem prefix_of_put {w : List α} (hl : l ∉ w) (h : w <+: put (l :: q) m) : w.map some <+: m := by
  induction w generalizing m with
  | nil => exact List.nil_prefix
  | cons c w ih =>
    have hc : c ≠ l := fun heq => hl (heq ▸ List.mem_cons_self)
    cases m with
    | nil => exact absurd (List.prefix_nil.mp h) (List.cons_ne_nil c w)
    | cons o m =>
      cases o with
      | none => exact absurd (List.cons_prefix_cons.mp h).1 hc
      | some d =>
        obtain ⟨rfl, hw⟩ := List.cons_prefix_cons.mp h
        exact List.cons_prefix_cons.mpr ⟨rfl, ih (fun hmem => hl (List.mem_cons_of_mem c hmem)) hw⟩

/-- **To replace a placeholder that stands in the marks is to mark where it is besides, and to put the
other word into all marks.** -/
theorem replaceAll_put (hl : l ∉ q) (t : List α) (m : List (Option α)) :
    replaceAll (l :: q) t (put (l :: q) m) =
      put t (replaceAll ((l :: q).map some) [none] m) := by
  have hmap : (l :: q).map some ≠ [] := List.cons_ne_nil _ _
  induction m using occurrences_rec hmap with
  | nil => rfl
  | hit m ih =>
    rw [put_append, put_map_some, replaceAll_append (List.cons_ne_nil l q), replaceAll_append hmap,
      put_append, ih]
    simp [put]
  | miss o m hpre ih =>
    rw [replaceAll_cons hpre]
    cases o with
    | none =>
      change replaceAll (l :: q) t ((l :: q) ++ put (l :: q) m) = t ++ put t _
      rw [replaceAll_append (List.cons_ne_nil l q), ih]
    | some c =>
      change replaceAll (l :: q) t (c :: put (l :: q) m) = c :: put t _
      rw [replaceAll_cons, ih]
      intro hplace
      obtain ⟨rfl, hq⟩ := List.cons_prefix_cons.mp hplace
      exact hpre (List.cons_prefix_cons.mpr ⟨rfl, prefix_of_put hl hq⟩)

/-- How many occurrences are replaced shows in the length of a text. -/
theorem length_replaced {pat : List α} (hne : pat ≠ []) (t : List α) (m : List (Option α)) :
    ∃ k, (put t (replaceAll (pat.map some) [none] m)).length + k * pat.length =
      (put t m).length + k * t.length ∧ (pat.map some <:+: m → 0 < k) := by
  have hmap : pat.map some ≠ [] := by simpa using hne
  induction m using occurrences_rec hmap with
  | nil =>
    refine ⟨0, ?_, fun h => absurd (List.infix_nil.mp h) hmap⟩
    rw [Nat.zero_mul, Nat.zero_mul]
    rfl
  | hit m ih =>
    obtain ⟨k, hk, -⟩ := ih
    refine ⟨k + 1, ?_, fun _ => Nat.succ_pos k⟩
    have hmark : put t ([none] ++ replaceAll (pat.map some) [none] m) =
        t ++ put t (replaceAll (pat.map some) [none] m) := rfl
    rw [replaceAll_append hmap, hmark, put_append, put_map_some, List.length_append,
      List.length_append, Nat.succ_mul, Nat.succ_mul]
    omega
  | miss o m hpre ih =>
    obtain ⟨k, hk, hpos⟩ := ih
    refine ⟨k, ?_, fun h => hpos ((List.infix_cons_iff.mp h).resolve_left hpre)⟩
    rw [replaceAll_cons hpre, put_cons, put_cons t o m, List.length_append, List.length_append]
    omega

/-- Words of one length that are put in place of each other are the same. -/
theorem eq_of_replaced {pat : List α} (hlen : t.length = pat.length) (hin : pat.map some <:+: m)
    (h : put t (replaceAll (pat.map some) [none] m) = put t m) (hne : pat ≠ []) : t = pat := by
  induction m with
  | nil => exact absurd (List.infix_nil.mp hin) (by simpa using hne)
  | cons o m ih =>
    by_cases hpre : pat.map some <+: o :: m
    · obtain ⟨m', hm⟩ := hpre
      have hmark : put t ([none] ++ replaceAll (pat.map some) [none] m') =
          t ++ put t (replaceAll (pat.map some) [none] m') := rfl
      rw [← hm, replaceAll_append (by simpa using hne), hmark, put_append, put_map_some] at h
      exact (List.append_inj h hlen).1
    · rw [replaceAll_cons hpre] at h
      rw [put_cons, put_cons t o m, List.append_cancel_left_eq] at h
      exact ih ((List.infix_cons_iff.mp hin).resolve_left hpre) h

/-- **A placeholder is replaced in the marks only, exactly if it is not in the text besides**, or is
replaced by itself. -/
theorem replaceAll_put_iff (hl : l ∉ q) :
    replaceAll (l :: q) t (put (l :: q) m) = put t m ↔
      t = l :: q ∨ ¬ (l :: q).map some <:+: m := by
  constructor
  · intro h
    by_contra hcon
    rw [not_or, not_not] at hcon
    obtain ⟨hne, hin⟩ := hcon
    rw [replaceAll_put hl] at h
    obtain ⟨k, hk, hpos⟩ := length_replaced (List.cons_ne_nil l q) t m
    rw [h, Nat.add_left_cancel_iff] at hk
    have hlen := Nat.eq_of_mul_eq_mul_left (hpos hin) hk
    exact hne (eq_of_replaced hlen.symm hin h (List.cons_ne_nil l q))
  · rintro (rfl | hin)
    · exact replaceAll_self (List.cons_ne_nil l q) _
    · rw [replaceAll_put hl, replaceAll_of_not_infix hin]

end Words
