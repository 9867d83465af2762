import HeyoCi.Expr.Template
import Mathlib.Data.List.TakeWhile

/-!
# Where an expression closes

Two scanners read an expression: one looks for the braces that close it, the other for its tokens.

* `IsQuote`, `Outside`: the places of a text outside its literals, a literal being what the tokenizer
  takes for one;
* `nextTok_takes`: a token is a literal, or there is no quote and no brace in it;
* `findClose_literal`: in a literal both scanners stop at the same place;
* `endsOutside_of_findClose`: what is before the braces ends outside its literals;
* **`findClose_agrees`**: the braces are the first ones outside the literals, and what has tokens is
  read to its end.
-/

namespace HeyoCi.Expr

def IsQuote (c : Char) : Prop := c = '\'' ∨ c = '"'

instance (c : Char) : Decidable (IsQuote c) := inferInstanceAs (Decidable (_ ∨ _))

/-- The second text is an end of the first one that begins outside a literal. -/
inductive Outside : List Char → List Char → Prop
  | here (cs : List Char) : Outside cs cs
  | char {c : Char} {cs rest : List Char} (hc : ¬ IsQuote c) (h : Outside cs rest) :
      Outside (c :: cs) rest
  | literal {c : Char} {cs lit mid rest : List Char} (hc : IsQuote c)
      (hq : quoted c cs = .ok (lit, mid)) (h : Outside mid rest) : Outside (c :: cs) rest

theorem Outside.suffix {cs rest : List Char} (h : Outside cs rest) : rest <:+ cs := by
  induction h with
  | here cs => exact List.suffix_rfl
  | char hc h ih => exact ih.trans (List.suffix_cons _ _)
  | literal hc hq h ih => exact (ih.trans (quoted_suffix hq)).trans (List.suffix_cons _ _)

/-- The places outside follow one another. -/
theorem Outside.to_end {cs rest : List Char} (hend : Outside cs []) (h : Outside cs rest) :
    Outside rest [] := by
  induction h with
  | here cs => exact hend
  | char hc h ih =>
    cases hend with
    | char hc' h' => exact ih h'
    | literal hc' hq h' => exact absurd hc' hc
  | literal hc hq h ih =>
    cases hend with
    | char hc' h' => exact absurd hc hc'
    | literal hc' hq' h' =>
      rw [hq] at hq'
      cases hq'
      exact ih h'

/-! ## Tokens -/

/-- Neither a quote nor a closing brace. -/
def Plain (c : Char) : Prop := ¬ IsQuote c ∧ c ≠ '}'

instance (c : Char) : Decidable (Plain c) := inferInstanceAs (Decidable (_ ∧ _))

theorem plain_of {p : Char → Bool} (hp : p '\'' = false ∧ p '"' = false ∧ p '}' = false) {c : Char}
    (hc : p c = true) : Plain c := by
  obtain ⟨hsingle, hdouble, hbrace⟩ := hp
  refine ⟨?_, ?_⟩
  · rintro (rfl | rfl)
    · rw [hsingle] at hc
      cases hc
    · rw [hdouble] at hc
      cases hc
  · rintro rfl
    rw [hbrace] at hc
    cases hc

theorem digits_plain (cs : List Char) : ∃ w, cs = w ++ (digits cs).2 ∧ ∀ d ∈ w, Plain d := by
  induction cs with
  | nil => exact ⟨[], rfl, by simp⟩
  | cons c cs ih =>
    unfold digits
    split_ifs with hc
    · obtain ⟨w, hcs, hw⟩ := ih
      refine ⟨c :: w, congrArg (c :: ·) hcs, ?_⟩
      rw [List.forall_mem_cons]
      refine ⟨plain_of (p := fun c => c.isDigit || c = '.') (by decide) ?_, hw⟩
      rw [Bool.or_eq_true, Bool.and_eq_true] at hc
      rw [Bool.or_eq_true]
      exact hc.imp_right And.left
    · exact ⟨[], rfl, by simp⟩

theorem identifier_plain (cs : List Char) :
    ∃ w, cs = w ++ (identifier cs).2 ∧ ∀ d ∈ w, Plain d := by
  refine ⟨cs.takeWhile isIdentChar, ?_, fun d hd => ?_⟩
  · rw [identifier, List.span_eq_takeWhile_dropWhile, List.takeWhile_append_dropWhile]
  · exact plain_of (p := isIdentChar) (by decide) (List.mem_takeWhile_imp hd)

variable {F : Type} {fl : Floats F}

/-- **A token is a literal, or it has neither a quote nor a closing brace in it.** -/
theorem nextTok_takes {c : Char} {cs rest : List Char} {t : Option (Tok F)}
    (h : nextTok fl c cs = .ok (t, rest)) :
    (IsQuote c ∧ ∃ lit, quoted c cs = .ok (lit, rest)) ∨
      ∃ w, c :: cs = c :: (w ++ rest) ∧ ∀ d ∈ c :: w, Plain d := by
  unfold nextTok at h
  split_ifs at h with hs
  · cases h
    refine Or.inr ⟨[], rfl, ?_⟩
    rw [List.forall_mem_singleton]
    exact plain_of (p := isAsciiWhitespace) (by decide) hs
  have hsign : ∀ d, ['.', '(', ')', ',', '=', '!', '>', '<', '&', '|'].contains d = true → Plain d :=
    fun d hd => plain_of (p := ['.', '(', ')', ',', '=', '!', '>', '<', '&', '|'].contains) (by decide) hd
  split at h
  -- one sign or two
  all_goals try (cases h; first
    | exact Or.inr ⟨[], rfl, List.forall_mem_singleton.mpr (hsign _ rfl)⟩
    | exact Or.inr ⟨[_], rfl, List.forall_mem_cons.mpr
        ⟨hsign _ rfl, List.forall_mem_singleton.mpr (hsign _ rfl)⟩⟩)
  split_ifs at h with hq hd hi
  · obtain ⟨⟨lit, mid⟩, hr, heq⟩ := Descent.map_ok.mp h
    cases heq
    exact Or.inl ⟨by simpa [IsQuote] using hq, lit, hr⟩
  · simp only at h
    split at h
    · cases h
      rw [digits_cons hd]
      obtain ⟨w, hcs, hw⟩ := digits_plain cs
      refine Or.inr ⟨w, congrArg (c :: ·) hcs, ?_⟩
      rw [List.forall_mem_cons]
      exact ⟨plain_of (p := Char.isDigit) (by decide) hd, hw⟩
    · cases h
  · cases h
    rw [identifier_cons hi]
    obtain ⟨w, hcs, hw⟩ := identifier_plain cs
    refine Or.inr ⟨w, congrArg (c :: ·) hcs, ?_⟩
    rw [List.forall_mem_cons]
    exact ⟨plain_of (p := isIdentChar) (by decide) hi, hw⟩

/-- Only a literal may have no end. -/
theorem nextTok_unterminated {c : Char} {cs : List Char}
    (h : nextTok fl c cs = .error .unterminatedString) :
    IsQuote c ∧ ∀ r, quoted c cs ≠ .ok r := by
  unfold nextTok at h
  split_ifs at h with hs
  split at h
  all_goals try (cases h)
  split_ifs at h with hq hd hi
  · refine ⟨by simpa [IsQuote] using hq, fun r hr => ?_⟩
    rw [hr] at h
    cases h
  · simp only at h
    split at h
    · cases h
    · cases h
  · cases h

theorem Outside.of_plain {w cs rest : List Char} (hw : ∀ d ∈ w, Plain d) (h : Outside cs rest) :
    Outside (w ++ cs) rest := by
  induction w with
  | nil => exact h
  | cons d w ih =>
    rw [List.forall_mem_cons] at hw
    exact .char hw.1.1 (ih hw.2)

/-- What is behind a token is outside. -/
theorem outside_nextTok {c : Char} {cs rest : List Char} {t : Option (Tok F)}
    (h : nextTok fl c cs = .ok (t, rest)) : Outside (c :: cs) rest := by
  rcases nextTok_takes h with ⟨hc, lit, hq⟩ | ⟨w, hcs, hw⟩
  · exact .literal hc hq (.here rest)
  · rw [hcs]
    exact .of_plain hw (.here rest)

/-- **A text that ends outside its literals has no literal without an end.** -/
theorem tokenize_ne_unterminated {cs : List Char} (hend : Outside cs []) :
    tokenize fl cs ≠ .error .unterminatedString := by
  induction hn : cs.length using Nat.strong_induction_on generalizing cs with
  | _ n ih =>
    cases cs with
    | nil =>
      intro h
      unfold tokenize at h
      cases h
    | cons c cs =>
      rw [tokenize_cons]
      cases hr : nextTok fl c cs with
      | error e =>
        simp only [Except.bind]
        intro h
        cases h
        obtain ⟨hc, hno⟩ := nextTok_unterminated hr
        cases hend with
        | char hc' _ => exact absurd hc hc'
        | literal _ hq _ => exact hno _ hq
      | ok r =>
        obtain ⟨t, rest⟩ := r
        have hrest : rest <:+ cs := keeps_nextTok c cs t rest hr
        have hlen : rest.length < n := by
          rw [← hn, List.length_cons]
          exact Nat.lt_succ_of_le hrest.length_le
        have hnot := ih rest.length hlen (hend.to_end (outside_nextTok hr)) rfl
        simp only [Except.bind]
        intro h
        cases htoks : tokenize fl rest with
        | error e =>
          rw [htoks] at h hnot
          cases h
          exact hnot rfl
        | ok ts =>
          rw [htoks] at h
          cases h

/-! ## Braces -/

/-- What was found, behind a text. -/
def behind (w : List Char) : List Char × List Char → List Char × List Char :=
  fun (body, rest) => (w ++ body, rest)

theorem map_behind_map (v w : List Char) (found : Option (List Char × List Char)) :
    (found.map (behind v)).map (behind w) = found.map (behind (w ++ v)) := by
  rw [Option.map_map]
  congr 1
  funext ⟨body, rest⟩
  exact congrArg (·, rest) (List.append_assoc w v body).symm

theorem findClose_closing (rest : List Char) :
    findClose none (closing ++ rest) = some ([], rest) := by
  change findClose none ('}' :: '}' :: rest) = _
  rw [findClose, if_neg (by decide)]

theorem findClose_outside {c : Char} {cs : List Char} (h : ¬ IsQuote c)
    (hbrace : c = '}' → cs.head? ≠ some '}') :
    findClose none (c :: cs) = (findClose none cs).map (behind [c]) := by
  have hquote : ¬(decide (c = '\'') || decide (c = '"')) = true := by simpa [IsQuote] using h
  rw [findClose.eq_def]
  simp only [if_neg hquote]
  split
  · exact absurd rfl (hbrace rfl)
  · rfl

/-- **In a literal the scanner stops where the tokenizer does**, whatever is behind it that is no
single quote. -/
theorem findClose_literal {quote : Char} {xs lit mid : List Char}
    (h : quoted quote xs = .ok (lit, mid)) (ys : List Char) (hys : ys.head? ≠ some '\'') :
    ∃ taken, xs = taken ++ mid ∧
      findClose (some quote) (xs ++ ys) = (findClose none (mid ++ ys)).map (behind taken) := by
  fun_induction quoted quote xs generalizing lit mid with
  | case1 => cases h
  | case2 cs hq ih =>
    obtain ⟨⟨lit', mid'⟩, hr, heq⟩ := Descent.map_ok.mp h
    cases heq
    obtain ⟨taken, rfl, hfind⟩ := ih hr
    refine ⟨quote :: '\'' :: taken, rfl, ?_⟩
    subst hq
    rw [List.cons_append, List.cons_append, findClose_doubled, hfind, Option.map_map]
    rfl
  | case3 cs hne =>
    cases h
    exact ⟨[quote], rfl, findClose_shut fun hq => absurd hq hne⟩
  | case4 cs hne =>
    cases h
    refine ⟨[quote], rfl, findClose_shut fun _ => ?_⟩
    cases cs with
    | nil => exact hys
    | cons d ds =>
      intro hd
      exact hne ds (congrArg (· :: ds) (Option.some.inj hd))
  | case5 c cs hc ih =>
    obtain ⟨⟨lit', mid'⟩, hr, heq⟩ := Descent.map_ok.mp h
    cases heq
    obtain ⟨taken, rfl, hfind⟩ := ih hr
    refine ⟨c :: taken, rfl, ?_⟩
    rw [List.cons_append, findClose_quoted hc, hfind, Option.map_map]
    rfl

theorem findClose_plain {w : List Char} (hw : ∀ d ∈ w, Plain d) (cs : List Char) :
    findClose none (w ++ cs) = (findClose none cs).map (behind w) := by
  induction w with
  | nil =>
    rw [List.nil_append]
    cases findClose none cs with
    | none => rfl
    | some r => rfl
  | cons d w ih =>
    rw [List.forall_mem_cons] at hw
    rw [List.cons_append, findClose_outside hw.1.1 fun heq => absurd heq hw.1.2, ih hw.2,
      map_behind_map]
    rfl

/-- **What has tokens is read to its end.** -/
theorem findClose_of_tokenize {cs : List Char} {toks : List (Tok F)}
    (h : tokenize fl cs = .ok toks) (rest : List Char) :
    findClose none (cs ++ (closing ++ rest)) = some (cs, rest) := by
  induction hn : cs.length using Nat.strong_induction_on generalizing cs toks with
  | _ n ih =>
    cases cs with
    | nil => exact findClose_closing rest
    | cons c cs =>
      rw [tokenize_cons] at h
      cases hr : nextTok fl c cs with
      | error e =>
        rw [hr] at h
        cases h
      | ok r =>
        obtain ⟨t, mid⟩ := r
        rw [hr] at h
        obtain ⟨ts, hts, -⟩ := Descent.map_ok.mp h
        have hmid : mid <:+ cs := keeps_nextTok c cs t mid hr
        have hlen : mid.length < n := by
          rw [← hn, List.length_cons]
          exact Nat.lt_succ_of_le hmid.length_le
        have hrest := ih mid.length hlen hts rfl
        rcases nextTok_takes hr with ⟨hc, lit, hq⟩ | ⟨w, hcs, hw⟩
        · obtain ⟨taken, rfl, hfind⟩ := findClose_literal hq (closing ++ rest) (by simp [closing])
          rw [List.cons_append, findClose_open hc, hfind, hrest]
          rfl
        · rw [hcs, ← List.cons_append, List.append_assoc, findClose_plain hw, hrest]
          rfl

/-- A text ends outside its literals. Behind a quote, the literal it is in has an end. -/
def EndsOutside : Option Char → List Char → Prop
  | none, cs => Outside cs []
  | some quote, cs => ∃ lit mid, quoted quote cs = .ok (lit, mid) ∧ Outside mid []

theorem endsOutside_of_findClose {quote : Option Char} {cs body rest : List Char}
    (h : findClose quote cs = some (body, rest)) : EndsOutside quote body := by
  fun_induction findClose quote cs generalizing body rest with
  | case1 => cases h
  | case2 cs ih =>
    obtain ⟨⟨b, r⟩, hb, heq⟩ := Option.map_eq_some_iff.mp h
    cases heq
    obtain ⟨lit, mid, hq, hmid⟩ := ih hb
    refine ⟨'\'' :: lit, mid, ?_, hmid⟩
    rw [quoted, if_pos rfl, if_pos rfl, hq]
    rfl
  | case3 c cs hne ih =>
    obtain ⟨⟨b, r⟩, hb, heq⟩ := Option.map_eq_some_iff.mp h
    cases heq
    exact ⟨[], b, quoted_shut fun hc => absurd hc hne, ih hb⟩
  | case4 c cs hne ih =>
    obtain ⟨⟨b, r⟩, hb, heq⟩ := Option.map_eq_some_iff.mp h
    cases heq
    refine ⟨[], b, quoted_shut fun _ hhead => ?_, ih hb⟩
    have hcs : cs = b ++ (closing ++ rest) := findClose_eq hb
    obtain ⟨tail, rfl⟩ := List.head?_eq_some_iff.mp hhead
    exact hne _ hcs
  | case5 q c cs hc ih =>
    obtain ⟨⟨b, r⟩, hb, heq⟩ := Option.map_eq_some_iff.mp h
    cases heq
    obtain ⟨lit, mid, hq, hmid⟩ := ih hb
    refine ⟨bytesAsChars c ++ lit, mid, ?_, hmid⟩
    rw [quoted_ne hc, hq]
    rfl
  | case6 c cs hc ih =>
    obtain ⟨⟨b, r⟩, hb, heq⟩ := Option.map_eq_some_iff.mp h
    cases heq
    obtain ⟨lit, mid, hq, hmid⟩ := ih hb
    exact .literal (by simpa [IsQuote] using hc) hq hmid
  | case7 rest => cases h; exact .here []
  | case8 c cs hbrace hc ih =>
    obtain ⟨⟨b, r⟩, hb, heq⟩ := Option.map_eq_some_iff.mp h
    cases heq
    exact .char (by simpa [IsQuote] using hc) (ih hb)

/-- The first braces outside the literals are the ones that close. -/
theorem findClose_first {cs body rest tail : List Char}
    (hout : Outside cs (closing ++ tail)) (h : findClose none cs = some (body, rest)) :
    tail.length ≤ rest.length := by
  generalize hend : closing ++ tail = place at hout
  induction hout generalizing body with
  | here cs =>
    rw [← hend, findClose_closing] at h
    cases h
    exact Nat.le_refl _
  | @char c cs place hc hout ih =>
    by_cases hbrace : c = '}' ∧ cs.head? = some '}'
    · obtain ⟨rfl, hhead⟩ := hbrace
      obtain ⟨ds, rfl⟩ := List.head?_eq_some_iff.mp hhead
      have hds : findClose none (closing ++ ds) = some (body, rest) := h
      rw [findClose_closing] at hds
      cases hds
      have hlen := hout.suffix.length_le
      rw [← hend, List.length_append, List.length_cons, closing] at hlen
      simp only [List.length_cons, List.length_nil] at hlen
      omega
    · rw [findClose_outside hc fun hc' hhead => hbrace ⟨hc', hhead⟩] at h
      obtain ⟨⟨b, r⟩, hb, heq⟩ := Option.map_eq_some_iff.mp h
      cases heq
      exact ih hb hend
  | literal hc hq hout ih =>
    obtain ⟨taken, -, hfind⟩ := findClose_literal hq [] (by simp)
    rw [List.append_nil, List.append_nil] at hfind
    rw [findClose_open hc, hfind, Option.map_map] at h
    obtain ⟨⟨b, r⟩, hb, heq⟩ := Option.map_eq_some_iff.mp h
    cases heq
    exact ih hb hend

/-- **The scanner and the tokenizer agree.** What is before the braces has no literal without an
end and no closing braces outside its literals, also none that the braces complete; and a text that
has tokens is read to its end. -/
theorem findClose_agrees (fl : Floats F) (b : List Char) :
    (∀ body rest, findClose none b = some (body, rest) →
      tokenize fl body ≠ .error .unterminatedString ∧
      ∀ place < body.length, Outside b (b.drop place) → ¬ closing <+: b.drop place) ∧
    (∀ toks, tokenize fl b = .ok toks →
      ∀ rest, findClose none (b ++ (closing ++ rest)) = some (b, rest)) := by
  refine ⟨fun body rest h => ⟨?_, ?_⟩, fun toks h rest => findClose_of_tokenize h rest⟩
  · have hend : EndsOutside none body := endsOutside_of_findClose h
    exact tokenize_ne_unterminated hend
  · rintro place hlt hout ⟨tail, htail⟩
    rw [← htail] at hout
    have hlen := findClose_first hout h
    have hb : b = body ++ (closing ++ rest) := findClose_eq h
    have hdrop := congrArg List.length htail
    rw [List.length_drop, List.length_append] at hdrop
    have hlenb := congrArg List.length hb
    rw [List.length_append, List.length_append] at hlenb
    omega

end HeyoCi.Expr
