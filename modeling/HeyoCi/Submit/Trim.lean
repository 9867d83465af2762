import Mathlib.Data.List.TakeWhile
import HeyoCi.Lib.Words
import HeyoCi.Submit.Objects

/-!
# Trimming and cutting

* `trimEndMatches_append`, **`trimEndMatches_spec`**: a text less all its endings of one kind;
* `splitLast_eq_some`, `notMem_of_mem_splitOn`: texts cut at a character;
* `Trimmed`, `trim_of_trimmed`, `trimmed_trim`: texts without white space at their ends;
  `trimmedParts_intercalate`: parts that are put together and found again;
* `afterFirst_append`, `afterLast_append`, `replaceFirst_append`: parts that do not have the
  separator are left alone;
* `toLower_cases`: what becomes of a letter; separators stay, and nothing becomes one.
-/

namespace HeyoCi.Text

/-! ## Endings -/

theorem dropAll_eq_self {pat cs : List Char} (h : ¬ pat <+: cs) (n : Nat) : dropAll pat n cs = cs := by
  cases n with
  | zero => rfl
  | succ n => rw [dropAll_succ, if_neg (by rwa [List.isPrefixOf_iff_prefix])]

theorem dropAll_append {pat : List Char} (n : Nat) (cs : List Char) :
    dropAll pat (n + 1) (pat ++ cs) = dropAll pat n cs := by
  rw [dropAll_succ, if_pos (List.isPrefixOf_iff_prefix.mpr (List.prefix_append pat cs)),
    List.drop_left]

theorem dropAll_spec {pat : List Char} (hpat : pat ≠ []) {n : Nat} {cs : List Char}
    (hn : cs.length ≤ n) : ¬ pat <+: dropAll pat n cs ∧
      ∃ k, cs = (List.replicate k pat).flatten ++ dropAll pat n cs := by
  induction n generalizing cs with
  | zero =>
    have hnil : cs = [] := List.length_eq_zero_iff.mp (Nat.le_zero.mp hn)
    rw [hnil, dropAll]
    exact ⟨fun h => hpat (List.prefix_nil.mp h), 0, rfl⟩
  | succ n ih =>
    by_cases hpre : pat <+: cs
    · obtain ⟨rest, rfl⟩ := hpre
      have hpos : 0 < pat.length := List.length_pos_iff.mpr hpat
      rw [List.length_append] at hn
      obtain ⟨hend, k, hk⟩ := @ih rest (by omega)
      rw [dropAll_append]
      refine ⟨hend, k + 1, ?_⟩
      rw [List.replicate_succ, List.flatten_cons, List.append_assoc, ← hk]
    · rw [dropAll_eq_self hpre]
      exact ⟨hpre, 0, rfl⟩

theorem dropAll_flatten {pat cs : List Char} (h : ¬ pat <+: cs) (k : Nat) {n : Nat} (hn : k ≤ n) :
    dropAll pat n ((List.replicate k pat).flatten ++ cs) = cs := by
  induction k generalizing n with
  | zero => exact dropAll_eq_self h n
  | succ k ih =>
    obtain ⟨n, rfl⟩ : ∃ m, n = m + 1 := ⟨n - 1, by omega⟩
    rw [List.replicate_succ, List.flatten_cons, List.append_assoc, dropAll_append,
      ih (Nat.le_of_succ_le_succ hn)]

theorem reverse_flatten_replicate (pat : List Char) (k : Nat) :
    (List.replicate k pat).flatten.reverse = (List.replicate k pat.reverse).flatten := by
  rw [List.reverse_flatten, List.map_replicate, List.reverse_replicate]

/-- **A text is what is left, and the ending some times over.** -/
theorem trimEndMatches_spec {pat : String} (hpat : pat.toList ≠ []) (cs : List Char) :
    ¬ pat.toList <:+ trimEndMatches pat cs ∧
      ∃ k, cs = trimEndMatches pat cs ++ (List.replicate k pat.toList).flatten := by
  have hrev : pat.toList.reverse ≠ [] := fun h => hpat (List.reverse_eq_nil_iff.mp h)
  have hlen : cs.reverse.length ≤ cs.length := Nat.le_of_eq List.length_reverse
  obtain ⟨hend, k, hk⟩ := dropAll_spec hrev hlen
  unfold trimEndMatches
  constructor
  · rwa [← List.reverse_prefix, List.reverse_reverse]
  · refine ⟨k, ?_⟩
    rw [← List.reverse_inj, List.reverse_append, reverse_flatten_replicate, List.reverse_reverse]
    exact hk

/-- What is left of a text and the ending some times over. -/
theorem trimEndMatches_append {pat : String} (hpat : pat.toList ≠ []) {cs : List Char}
    (h : ¬ pat.toList <:+ cs) (k : Nat) :
    trimEndMatches pat (cs ++ (List.replicate k pat.toList).flatten) = cs := by
  have hpos : 0 < pat.toList.length := List.length_pos_iff.mpr hpat
  have hlen : k ≤ (cs ++ (List.replicate k pat.toList).flatten).length := by
    rw [List.length_append, List.length_flatten, List.map_replicate, List.sum_replicate_nat]
    have hk : k * 1 ≤ k * pat.toList.length := Nat.mul_le_mul_left k hpos
    omega
  unfold trimEndMatches
  rw [List.reverse_append, reverse_flatten_replicate, dropAll_flatten _ k hlen,
    List.reverse_reverse]
  rwa [List.reverse_prefix]

theorem trimEndMatches_eq_self {pat : String} (hpat : pat.toList ≠ []) {cs : List Char}
    (h : ¬ pat.toList <:+ cs) : trimEndMatches pat cs = cs := by
  have happend := trimEndMatches_append hpat h 0
  rwa [List.replicate_zero, List.flatten_nil, List.append_nil] at happend

theorem trimEndMatches_isPrefix {pat : String} (hpat : pat.toList ≠ []) (cs : List Char) :
    trimEndMatches pat cs <+: cs := by
  obtain ⟨-, k, hk⟩ := trimEndMatches_spec hpat cs
  exact ⟨_, hk.symm⟩

theorem not_suffix_append {c : Char} {xs : List Char} (hne : xs ≠ []) (h : ¬ [c] <:+ xs)
    (ys : List Char) : ¬ [c] <:+ ys ++ xs := fun hsuffix =>
  h (List.suffix_of_suffix_length_le hsuffix (List.suffix_append ys xs)
    (List.length_pos_iff.mpr hne))

theorem not_suffix_of_notMem {c : Char} {xs : List Char} (h : c ∉ xs) : ¬ [c] <:+ xs :=
  fun hsuffix => h (hsuffix.subset (List.mem_singleton.mpr rfl))

/-! ## Separators -/

theorem afterFirst_append {p : Char} {ps xs : List Char} (h : p ∉ xs) (ys : List Char) :
    afterFirst (p :: ps) (xs ++ ys) = afterFirst (p :: ps) ys := by
  induction xs with
  | nil => rfl
  | cons x xs ih =>
    have hne : (p == x) = false := beq_false_of_ne fun heq => h (heq ▸ List.mem_cons_self)
    have hpre : (p :: ps).isPrefixOf (x :: (xs ++ ys)) = false := by
      rw [List.isPrefixOf, hne, Bool.false_and]
    rw [List.cons_append, afterFirst_cons, hpre]
    exact ih fun hmem => h (List.mem_cons_of_mem x hmem)

theorem afterFirst_self (p : Char) (ps ys : List Char) :
    afterFirst (p :: ps) (p :: ps ++ ys) = some ys := by
  have hpre : (p :: ps).isPrefixOf (p :: (ps ++ ys)) = true :=
    List.isPrefixOf_iff_prefix.mpr ⟨ys, rfl⟩
  rw [List.cons_append, afterFirst_cons, if_pos hpre, ← List.cons_append, List.drop_left]

theorem afterFirst_of_notMem {p : Char} {ps xs : List Char} (h : p ∉ xs) :
    afterFirst (p :: ps) xs = none := by
  have happend : afterFirst (p :: ps) (xs ++ []) = afterFirst (p :: ps) [] :=
    afterFirst_append h []
  rwa [List.append_nil] at happend

theorem length_afterFirst {pat cs r : List Char} (hpat : pat ≠ []) (h : afterFirst pat cs = some r) :
    r.length < cs.length := by
  induction cs with
  | nil => cases h
  | cons c cs ih =>
    rw [afterFirst_cons] at h
    split_ifs at h
    · cases h
      have hpos : 0 < pat.length := List.length_pos_iff.mpr hpat
      rw [List.length_drop, List.length_cons]
      omega
    · exact Nat.lt_succ_of_lt (ih h)

theorem afterFirst_suffix {pat cs r : List Char} (h : afterFirst pat cs = some r) : r <:+ cs := by
  induction cs with
  | nil => cases h
  | cons c cs ih =>
    rw [afterFirst_cons] at h
    split_ifs at h
    · cases h
      exact List.drop_suffix _ _
    · exact (ih h).trans (List.suffix_cons c cs)

theorem afterLast_suffix (c : Char) (cs : List Char) : afterLast c cs <:+ cs := by
  rw [← List.reverse_prefix, afterLast, List.reverse_reverse]
  exact List.takeWhile_prefix _

theorem notMem_afterLast (c : Char) (cs : List Char) : c ∉ afterLast c cs := by
  intro hmem
  have hne := List.mem_takeWhile_imp (List.mem_reverse.mp hmem)
  simp at hne

theorem afterLast_cons {c : Char} {ys : List Char} (h : c ∉ ys) (xs : List Char) :
    afterLast c (xs ++ c :: ys) = ys := by
  have hall : ∀ d ∈ ys.reverse, (d ≠ c : Bool) = true := by
    intro d hd
    exact decide_eq_true fun heq => h (heq ▸ List.mem_reverse.mp hd)
  rw [afterLast, List.reverse_append, List.reverse_cons, List.append_assoc,
    List.takeWhile_append_of_pos hall]
  simp

theorem afterLast_of_notMem {c : Char} {cs : List Char} (h : c ∉ cs) : afterLast c cs = cs := by
  have hall : ∀ d ∈ cs.reverse, (d ≠ c : Bool) = true := by
    intro d hd
    exact decide_eq_true fun heq => h (heq ▸ List.mem_reverse.mp hd)
  have htake : cs.reverse.takeWhile (· ≠ c) = cs.reverse := List.takeWhile_eq_self_iff.mpr hall
  rw [afterLast, htake, List.reverse_reverse]

theorem afterLast_append {c : Char} {ys : List Char} (h : c ∈ ys) (xs : List Char) :
    afterLast c (xs ++ ys) = afterLast c ys := by
  obtain ⟨as, bs, hys, hbs⟩ := List.eq_append_cons_of_mem (List.mem_reverse.mpr h)
  have hsplit : ys = bs.reverse ++ c :: as.reverse := by
    rw [← List.reverse_reverse ys, hys, List.reverse_append, List.reverse_cons, List.append_assoc]
    rfl
  have has : c ∉ as.reverse := fun hmem => hbs (List.mem_reverse.mp hmem)
  rw [hsplit, ← List.append_assoc, afterLast_cons has, afterLast_cons has]

/-- What is before a separator does not count. -/
theorem afterLast_behind (c : Char) (xs ys : List Char) :
    afterLast c (xs ++ c :: ys) = afterLast c ys := by
  by_cases h : c ∈ ys
  · rw [List.append_cons, afterLast_append h]
  · rw [afterLast_cons h, afterLast_of_notMem h]

theorem afterLast_dropWhile (c : Char) (cs : List Char) :
    afterLast c (cs.dropWhile (· = c)) = afterLast c cs := by
  induction cs with
  | nil => rfl
  | cons d cs ih =>
    rw [List.dropWhile_cons]
    split_ifs with hd
    · rw [ih, of_decide_eq_true hd]
      exact (afterLast_behind c [] cs).symm
    · rfl

theorem replaceFirst_of_notMem {c d : Char} {cs : List Char} (h : c ∉ cs) :
    replaceFirst c d cs = cs := by
  induction cs with
  | nil => rfl
  | cons x xs ih =>
    have hne : ¬ x = c := fun heq => h (heq ▸ List.mem_cons_self)
    rw [replaceFirst_step, if_neg hne, ih fun hmem => h (List.mem_cons_of_mem x hmem)]

theorem replaceFirst_append {c d : Char} {xs : List Char} (h : c ∉ xs) (ys : List Char) :
    replaceFirst c d (xs ++ ys) = xs ++ replaceFirst c d ys := by
  induction xs with
  | nil => rfl
  | cons x xs ih =>
    have hne : ¬ x = c := fun heq => h (heq ▸ List.mem_cons_self)
    rw [List.cons_append, replaceFirst_step, if_neg hne, ih fun hmem => h (List.mem_cons_of_mem x hmem),
      List.cons_append]

theorem replaceFirst_cons (c d : Char) (cs : List Char) :
    replaceFirst c d (c :: cs) = d :: cs := by
  rw [replaceFirst_step, if_pos rfl]

theorem mem_replaceFirst {c d e : Char} {cs : List Char} (h : e ∈ replaceFirst c d cs) :
    e = d ∨ e ∈ cs := by
  induction cs with
  | nil => cases h
  | cons x xs ih =>
    rw [replaceFirst_step] at h
    split_ifs at h
    · rcases List.mem_cons.mp h with heq | hmem
      · exact Or.inl heq
      · exact Or.inr (List.mem_cons_of_mem x hmem)
    · rcases List.mem_cons.mp h with heq | hmem
      · exact Or.inr (heq ▸ List.mem_cons_self)
      · exact (ih hmem).imp_right (List.mem_cons_of_mem x)

theorem length_replaceFirst (c d : Char) (cs : List Char) :
    (replaceFirst c d cs).length = cs.length := by
  induction cs with
  | nil => rfl
  | cons x xs ih =>
    rw [replaceFirst_step]
    split_ifs
    · rfl
    · rw [List.length_cons, List.length_cons, ih]

theorem splitLast_eq_none {c : Char} {cs : List Char} : splitLast [c] cs = none ↔ c ∉ cs := by
  induction cs with
  | nil => simp [splitLast]
  | cons x xs ih =>
    rw [splitLast, List.mem_cons, not_or]
    cases hs : splitLast [c] xs with
    | some p =>
      have hmem : ¬ c ∉ xs := fun h => by rw [ih.mpr h] at hs; cases hs
      exact iff_of_false (by simp) fun h => hmem h.2
    | none =>
      have hpre : [c].isPrefixOf (x :: xs) = true ↔ c = x := by simp [List.isPrefixOf]
      simp only [hpre, ih.mp hs, not_false_eq_true, and_true]
      split_ifs with h
      · exact iff_of_false (by simp) fun hne => hne h
      · exact iff_of_true rfl h

theorem notMem_of_splitLast {c : Char} {cs before after : List Char}
    (h : splitLast [c] cs = some (before, after)) : c ∉ after := by
  induction cs generalizing before with
  | nil => cases h
  | cons x xs ih =>
    rw [splitLast] at h
    cases hs : splitLast [c] xs with
    | some p =>
      rw [hs] at h
      cases h
      exact ih hs
    | none =>
      rw [hs] at h
      dsimp only at h
      split_ifs at h
      cases h
      exact splitLast_eq_none.mp hs

/-- A text cut at the last occurrence of a character. -/
theorem splitLast_eq_some {c : Char} {cs before after : List Char} :
    splitLast [c] cs = some (before, after) ↔ cs = before ++ c :: after ∧ c ∉ after := by
  refine ⟨fun h => ⟨splitLast_eq h, notMem_of_splitLast h⟩, ?_⟩
  rintro ⟨heq, hnot⟩
  cases hs : splitLast [c] cs with
  | none =>
    have hmem : c ∈ cs := by
      rw [heq]
      exact List.mem_append_right _ List.mem_cons_self
    exact absurd hmem (splitLast_eq_none.mp hs)
  | some p =>
    obtain ⟨before', after'⟩ := p
    have heq' : cs = before' ++ c :: after' := splitLast_eq hs
    obtain ⟨rfl, -, rfl⟩ := Words.last_split_inj (p := (· ≠ c)) (heq'.symm.trans heq) (by simp)
      (by simp) (fun d hd h => notMem_of_splitLast hs (h ▸ hd)) fun d hd h => hnot (h ▸ hd)
    rfl

/-! ## White space and case -/

/-- A text without white space at its ends. -/
def Trimmed (cs : List Char) : Prop :=
  (∀ c, cs.head? = some c → isWhitespace c = false) ∧
    ∀ c, cs.getLast? = some c → isWhitespace c = false

theorem dropWhile_of_head {p : Char → Bool} {cs : List Char}
    (h : ∀ c, cs.head? = some c → p c = false) : cs.dropWhile p = cs := by
  cases cs with
  | nil => rfl
  | cons c cs => rw [List.dropWhile_cons, h c rfl, if_neg Bool.false_ne_true]

theorem head_dropWhile {p : Char → Bool} {cs : List Char} {c : Char}
    (h : (cs.dropWhile p).head? = some c) : p c = false := by
  have hnot := List.head?_dropWhile_not p cs
  rwa [h] at hnot

theorem trim_of_trimmed {cs : List Char} (h : Trimmed cs) :
    trim (String.ofList cs) = String.ofList cs := by
  have hlast : cs.reverse.dropWhile isWhitespace = cs.reverse := by
    apply dropWhile_of_head
    rw [List.head?_reverse]
    exact h.2
  rw [trim, trimEnd, String.toList_ofList, dropWhile_of_head h.1, hlast, List.reverse_reverse]

theorem trim_of_noSpace {cs : List Char} (h : ∀ c ∈ cs, isWhitespace c = false) :
    trim (String.ofList cs) = String.ofList cs :=
  trim_of_trimmed ⟨fun c hc => h c (List.mem_of_head? hc), fun c hc => h c (List.mem_of_getLast? hc)⟩

theorem trimmed_trim (s : String) : Trimmed (trim s).toList := by
  rw [trim, String.toList_ofList]
  constructor
  · intro c hc
    have hpre : trimEnd (s.toList.dropWhile isWhitespace) <+: s.toList.dropWhile isWhitespace := by
      rw [← List.reverse_suffix, trimEnd, List.reverse_reverse]
      exact List.dropWhile_suffix _
    obtain ⟨t, ht⟩ := hpre
    have hhead : (s.toList.dropWhile isWhitespace).head? = some c := by
      rw [← ht, List.head?_append, hc]
      rfl
    exact head_dropWhile hhead
  · intro c hc
    rw [trimEnd, List.getLast?_reverse] at hc
    exact head_dropWhile hc

theorem trim_trim (s : String) : trim (trim s) = trim s := by
  have h := trim_of_trimmed (trimmed_trim s)
  rwa [String.ofList_toList] at h

theorem mem_of_mem_trim {s : String} {c : Char} (h : c ∈ (trim s).toList) : c ∈ s.toList := by
  rw [trim, trimEnd, String.toList_ofList, List.mem_reverse] at h
  have hrev := (List.dropWhile_sublist _).mem h
  exact (List.dropWhile_sublist _).mem (List.mem_reverse.mp hrev)

theorem mem_dropWhile_of_mem {p : Char → Bool} {cs : List Char} {c : Char} (h : c ∈ cs)
    (hc : p c = false) : c ∈ cs.dropWhile p := by
  rw [← List.takeWhile_append_dropWhile (p := p) (l := cs)] at h
  rcases List.mem_append.mp h with hin | hin
  · rw [List.mem_takeWhile_imp hin] at hc
    cases hc
  · exact hin

theorem mem_trim_of_mem {s : String} {c : Char} (h : c ∈ s.toList) (hc : isWhitespace c = false) :
    c ∈ (trim s).toList := by
  rw [trim, trimEnd, String.toList_ofList, List.mem_reverse]
  exact mem_dropWhile_of_mem (List.mem_reverse.mpr (mem_dropWhile_of_mem h hc)) hc

theorem trimmed_append_cons {as bs : List Char} {c : Char} (has : Trimmed as) (hbs : Trimmed bs)
    (hc : isWhitespace c = false) : Trimmed (as ++ c :: bs) := by
  constructor
  · intro d hd
    rw [List.head?_append] at hd
    cases hhead : as.head? with
    | none =>
      rw [hhead] at hd
      cases hd
      exact hc
    | some e =>
      rw [hhead] at hd
      cases hd
      exact has.1 _ hhead
  · intro d hd
    rw [List.getLast?_append, List.getLast?_cons] at hd
    cases hlast : bs.getLast? with
    | none =>
      rw [hlast] at hd
      cases hd
      exact hc
    | some e =>
      rw [hlast] at hd
      cases hd
      exact hbs.2 _ hlast

theorem trimmed_intercalate {c : Char} (hc : isWhitespace c = false) {css : List (List Char)}
    (h : ∀ cs ∈ css, Trimmed cs) : Trimmed ([c].intercalate css) := by
  induction css with
  | nil => exact ⟨nofun, nofun⟩
  | cons cs css ih =>
    have hcs := h cs List.mem_cons_self
    cases css with
    | nil => rwa [List.intercalate_singleton]
    | cons ds css =>
      rw [List.intercalate_cons_cons, List.append_assoc]
      exact trimmed_append_cons hcs (ih fun es hes => h es (List.mem_cons_of_mem _ hes)) hc

theorem notMem_of_mem_splitOn {c : Char} {cs part : List Char} (h : part ∈ cs.splitOn c) :
    c ∉ part := by
  induction hn : cs.length using Nat.strongRecOn generalizing cs with
  | ind n ih =>
    by_cases hc : c ∈ cs
    · obtain ⟨as, bs, rfl, has⟩ := List.eq_append_cons_of_mem hc
      rw [List.splitOn_append_cons_self_of_not_mem has] at h
      rcases List.mem_cons.mp h with rfl | h
      · exact has
      · rw [List.length_append, List.length_cons] at hn
        exact ih bs.length (by omega) h rfl
    · rw [List.splitOn_eq_singleton hc] at h
      rwa [List.mem_singleton.mp h]

/-- The trimmed parts of a text have no separator in them. -/
theorem mem_trimmedParts {c : Char} {cs : List Char} {p : String}
    (h : p ∈ (cs.splitOn c).map fun part => trim (String.ofList part)) :
    c ∉ p.toList ∧ Trimmed p.toList := by
  obtain ⟨raw, hraw, rfl⟩ := List.mem_map.mp h
  refine ⟨fun hmem => notMem_of_mem_splitOn hraw ?_, trimmed_trim _⟩
  have hc := mem_of_mem_trim hmem
  rwa [String.toList_ofList] at hc

/-- Trimmed parts that were put together are found again. -/
theorem trimmedParts_intercalate {c : Char} (hc : isWhitespace c = false) {ps : List String}
    (hne : ps ≠ []) (h : ∀ p ∈ ps, c ∉ p.toList ∧ Trimmed p.toList) :
    ((trim (String.ofList ([c].intercalate (ps.map String.toList)))).toList.splitOn c).map
      (fun part => trim (String.ofList part)) = ps := by
  have hsep : ∀ cs ∈ ps.map String.toList, c ∉ cs := by
    rintro cs hcs
    obtain ⟨p, hp, rfl⟩ := List.mem_map.mp hcs
    exact (h p hp).1
  have htrim : Trimmed ([c].intercalate (ps.map String.toList)) := by
    refine trimmed_intercalate hc fun cs hcs => ?_
    obtain ⟨p, hp, rfl⟩ := List.mem_map.mp hcs
    exact (h p hp).2
  rw [trim_of_trimmed htrim, String.toList_ofList,
    List.splitOn_intercalate c hsep (by simpa using hne), List.map_map]
  conv_rhs => rw [← List.map_id ps]
  refine List.map_congr_left fun p hp => ?_
  rw [Function.comp_apply, trim_of_trimmed (h p hp).2, String.ofList_toList, id]

/-- A capital letter becomes the small one, and all else stays. -/
theorem toLower_cases (c : Char) : c.toLower = c ∨
    (65 ≤ c.toNat ∧ c.toNat ≤ 90 ∧ c.toLower.toNat = c.toNat + 32) := by
  by_cases h : c.val ≥ 'A'.val ∧ c.val ≤ 'Z'.val
  · right
    have hlow : 65 ≤ c.toNat := UInt32.le_iff_toNat_le.mp h.1
    have hhigh : c.toNat ≤ 90 := UInt32.le_iff_toNat_le.mp h.2
    refine ⟨hlow, hhigh, ?_⟩
    delta Char.toLower
    rw [dif_pos h]
    change (c.val + 32).toNat = c.toNat + 32
    rw [UInt32.toNat_add]
    have hval : c.val.toNat = c.toNat := rfl
    rw [hval]
    change (c.toNat + 32) % 2 ^ 32 = c.toNat + 32
    omega
  · left
    delta Char.toLower
    rw [dif_neg h]

theorem toLower_eq_iff {c d : Char} (hd : d.toNat < 65) : c.toLower = d ↔ c = d := by
  rcases toLower_cases c with h | ⟨hlow, -, h⟩
  · rw [h]
  · constructor
    · intro heq
      rw [heq] at h
      omega
    · rintro rfl
      omega

theorem toLower_toLower (c : Char) : c.toLower.toLower = c.toLower := by
  rcases toLower_cases c with h | ⟨hlow, -, h⟩
  · rw [h, h]
  · rcases toLower_cases c.toLower with h' | ⟨-, hhigh, -⟩
    · exact h'
    · omega

theorem isWhitespace_toLower {c : Char} (h : isWhitespace c = false) :
    isWhitespace c.toLower = false := by
  rcases toLower_cases c with heq | ⟨hlow, hhigh, heq⟩
  · rw [heq, h]
  · unfold isWhitespace
    simp only [heq]
    simp
    omega

end HeyoCi.Text
