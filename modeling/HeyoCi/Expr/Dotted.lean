import HeyoCi.Expr.Spelling
import HeyoCi.Workflow.File
import Mathlib.Data.List.Chain
import Mathlib.Data.List.TakeWhile

/-!
# Dotted paths

The tokenizer takes digits, and points with a digit behind them, for one number.

* `dots`, `dotted`: the text of a path;
* `runs`: its segments as the tokenizer takes them, indices next to each other together;
* `segOf`, `spells_dots`, `writes_of_ok`: how a segment is read; **`eval_dotted`**: the keys that a
  path is looked up by;
* `nest`: a value that has something at one path only;
* `Canonical`, `Tidy`: indices and paths that are read as they are written; `eval_tidy`,
  `tidy_of_eval`;
* `eval_split`: an id of digits and letters;
* **`dotted_iff`**: the ids and the paths that are read in every context.
-/

namespace HeyoCi.Expr

/-! ## The text of a path -/

/-- Segments, each behind a point. -/
def dots (segs : List (List Char)) : List Char := segs.flatMap fun s => '.' :: s

def dotted (scope : String) (segs : List String) : List Char :=
  scope.toList ++ dots (segs.map String.toList)

/-- A text begins with a digit. -/
def StartsDigit (s : List Char) : Prop := ∃ c cs, s = c :: cs ∧ c.isDigit = true

instance : (s : List Char) → Decidable (StartsDigit s)
  | [] => .isFalse (by rintro ⟨c, cs, ⟨⟩, -⟩)
  | c :: cs => decidable_of_iff (c.isDigit = true)
    ⟨fun h => ⟨c, cs, rfl, h⟩, by rintro ⟨_, _, ⟨⟩, h⟩; exact h⟩

variable {F : Type} {fl : Floats F} {ctx : Json.Obj} {s r text : List Char}
  {segs rs : List (List Char)}

theorem Word.not_startsDigit (h : Word s) : ¬ StartsDigit s := by
  obtain ⟨c, cs, rfl, hc⟩ := h.first
  rintro ⟨_, _, ⟨⟩, hd⟩
  rw [hc] at hd
  cases hd

theorem Digits.startsDigit (h : Digits s) : StartsDigit s := by
  obtain ⟨c, cs, rfl⟩ := List.exists_cons_of_ne_nil h.1
  exact ⟨c, cs, rfl, h.2 c List.mem_cons_self⟩

theorem Digits.digits_eq (h : ∀ c ∈ s, c.isDigit = true) (rest : List Char) :
    digits (s ++ rest) = (s ++ (digits rest).1, (digits rest).2) := by
  induction s with
  | nil => rfl
  | cons c cs ih =>
    rw [List.cons_append, digits_cons (h c List.mem_cons_self),
      ih fun d hd => h d (List.mem_cons_of_mem c hd)]
    rfl

theorem Digits.numeric (h : Digits s) : Numeric s where
  first := h.startsDigit
  all := by
    have heq := Digits.digits_eq h.2 []
    rw [List.append_nil] at heq
    rw [heq]
    exact Prod.ext (List.append_nil s) rfl

/-- Digits with a number behind them are one number. -/
theorem Digits.numeric_append (h : Digits s) (hr : Numeric r) : Numeric (s ++ '.' :: r) where
  first := by
    obtain ⟨c, cs, rfl, hc⟩ := h.startsDigit
    exact ⟨c, cs ++ '.' :: r, rfl, hc⟩
  all := by
    obtain ⟨c, cs, rfl, hc⟩ := hr.first
    have hpoint : digits ('.' :: c :: cs) = ('.' :: c :: cs, []) := by
      rw [digits, if_pos (by simp [hc]), hr.all]
    rw [Digits.digits_eq h.2, hpoint]

/-! ## Segments as they are taken -/

/-- Digits are taken together with a segment behind them that begins with a digit. -/
def runs : List (List Char) → List (List Char)
  | [] => []
  | s :: segs => match runs segs with
    | [] => [s]
    | r :: rs => if Digits s ∧ StartsDigit r then (s ++ '.' :: r) :: rs else s :: r :: rs

/-- No segment that begins with a digit is behind another one. -/
def Apart (segs : List (List Char)) : Prop :=
  segs.IsChain fun s t => ¬ (StartsDigit s ∧ StartsDigit t)

theorem dots_runs (segs : List (List Char)) : dots (runs segs) = dots segs := by
  induction segs with
  | nil => rfl
  | cons s segs ih =>
    have hcons : dots (s :: segs) = '.' :: s ++ dots (runs segs) := by
      rw [ih]
      rfl
    rw [hcons, runs]
    cases runs segs with
    | nil => rfl
    | cons r rs =>
      simp only
      split_ifs
      · simp [dots]
      · rfl

theorem runs_length (segs : List (List Char)) : (runs segs).length ≤ segs.length := by
  induction segs with
  | nil => exact Nat.le_refl 0
  | cons s segs ih =>
    rw [runs]
    cases hruns : runs segs with
    | nil => simp
    | cons r rs =>
      rw [hruns] at ih
      simp only [List.length_cons] at ih ⊢
      split_ifs <;> simp only [List.length_cons] <;> omega

/-- Where no segment is taken together with another one, they stay. -/
theorem runs_eq (h : (runs segs).length = segs.length) : runs segs = segs := by
  induction segs with
  | nil => rfl
  | cons s segs ih =>
    have hle := runs_length segs
    rw [runs] at h ⊢
    cases hruns : runs segs with
    | nil =>
      rw [hruns] at h
      have hnil : segs = [] := List.eq_nil_of_length_eq_zero (by simpa using h.symm)
      rw [hnil]
    | cons r rs =>
      rw [hruns] at h hle ih
      simp only at h ⊢
      by_cases hjoin : Digits s ∧ StartsDigit r
      · rw [if_pos hjoin] at h
        simp only [List.length_cons] at h hle
        omega
      · rw [if_neg hjoin] at h ⊢
        rw [ih (by simpa using h)]

/-- A segment as it may be written. -/
def Segment (s : List Char) : Prop := Word s ∨ Digits s

theorem runs_word_or_numeric (h : ∀ s ∈ segs, Segment s) :
    ∀ r ∈ runs segs, Word r ∨ Numeric r := by
  induction segs with
  | nil => exact nofun
  | cons s segs ih =>
    have ih := ih fun t ht => h t (List.mem_cons_of_mem s ht)
    have hs : Word s ∨ Numeric s := (h s List.mem_cons_self).imp_right Digits.numeric
    rw [runs]
    cases hruns : runs segs with
    | nil =>
      intro t ht
      rw [List.mem_singleton] at ht
      exact ht ▸ hs
    | cons r rs =>
      rw [hruns] at ih
      simp only
      split_ifs with hjoin
      · have hr : Numeric r := (ih r List.mem_cons_self).resolve_left
          fun hword => hword.not_startsDigit hjoin.2
        intro t ht
        rcases List.mem_cons.mp ht with rfl | ht
        · exact Or.inr (hjoin.1.numeric_append hr)
        · exact ih t (List.mem_cons_of_mem r ht)
      · intro t ht
        rcases List.mem_cons.mp ht with rfl | ht
        · exact hs
        · exact ih t ht

theorem runs_apart (h : ∀ s ∈ segs, Segment s) : Apart (runs segs) := by
  induction segs with
  | nil => exact .nil
  | cons s segs ih =>
    have ih := ih fun t ht => h t (List.mem_cons_of_mem s ht)
    rw [runs]
    cases hruns : runs segs with
    | nil => exact .singleton s
    | cons r rs =>
      rw [hruns] at ih
      simp only
      split_ifs with hjoin
      · cases rs with
        | nil => exact .singleton _
        | cons t rs =>
          obtain ⟨hrt, hrest⟩ := List.isChain_cons_cons.mp ih
          exact .cons_cons (fun h => hrt ⟨hjoin.2, h.2⟩) hrest
      · refine .cons_cons ?_ ih
        rintro ⟨hs, hr⟩
        have hdigits : Digits s := (h s List.mem_cons_self).resolve_left
          fun hword => hword.not_startsDigit hs
        exact hjoin ⟨hdigits, hr⟩

/-! ## How a segment is read -/

/-- A segment that begins with a digit is a number, if it is one. -/
def segOf (fl : Floats F) (s : List Char) : Seg F :=
  match if StartsDigit s then fl.parse (String.ofList s) else none with
  | some x => .index x
  | none => .name (String.ofList s)

theorem segOf_word (h : Word s) : segOf fl s = .name (String.ofList s) := by
  rw [segOf, if_neg h.not_startsDigit]

theorem segOf_numeric {x : F} (h : Numeric s) (hx : fl.parse (String.ofList s) = some x) :
    segOf fl s = .index x := by
  have hstart : StartsDigit s := h.first
  rw [segOf, if_pos hstart, hx]

theorem writes_word (h : Word s) : Writes fl (segOf fl s).tok s := by
  rw [segOf_word h]
  exact .ident h

theorem writes_numeric {x : F} (h : Numeric s) (hx : fl.parse (String.ofList s) = some x) :
    Writes fl (segOf fl s).tok s := by
  rw [segOf_numeric h hx]
  exact .num h hx

theorem startsDigit_of_index {x : F} (h : segOf fl s = .index x) : StartsDigit s := by
  by_contra hs
  rw [segOf, if_neg hs] at h
  cases h

/-- A point ends a number unless a digit is behind it. -/
theorem digits_point (h : ¬ StartsDigit text) : (digits ('.' :: text)).1 = [] := by
  rw [digits, if_neg]
  cases text with
  | nil => simp
  | cons c cs =>
    have hc : c.isDigit = false := by
      rw [← Bool.not_eq_true]
      exact fun hc => h ⟨c, cs, rfl, hc⟩
    simp [hc]

theorem digits_dots (hs : StartsDigit s) (h : Apart (s :: segs)) : (digits (dots segs)).1 = [] := by
  cases segs with
  | nil => rfl
  | cons r segs =>
    have hr : ¬ StartsDigit r := fun hr => (List.isChain_cons_cons.mp h).1 ⟨hs, hr⟩
    have hpoint : ¬ StartsDigit (r ++ dots segs) → (digits (dots (r :: segs))).1 = [] := digits_point
    refine hpoint ?_
    rintro ⟨c, cs, heq, hc⟩
    cases r with
    | cons d ds =>
      cases heq
      exact hr ⟨_, _, rfl, hc⟩
    | nil =>
      cases segs with
      | nil => cases heq
      | cons t segs =>
        cases heq
        cases hc

/-- A point ends an identifier, and so does the end of the text. -/
theorem stops_ident (name : String) (segs : List (List Char)) :
    Stops (.ident name : Tok F) (dots segs) := by
  intro c hc
  cases segs with
  | nil => cases hc
  | cons r segs =>
    obtain rfl : '.' = c := Option.some.inj hc
    rfl

/-- What is behind a segment ends it, unless both begin with digits. -/
theorem stops_dots (h : Apart (s :: segs)) : Stops (segOf fl s).tok (dots segs) := by
  cases hseg : segOf fl s with
  | index x => exact digits_dots (startsDigit_of_index hseg) h
  | name n => exact stops_ident n segs

/-- The tokens of a path behind its scope. -/
def segToks (fl : Floats F) (segs : List (List Char)) : List (Tok F) :=
  (segs.map (segOf fl)).flatMap fun g => [.dot, g.tok]

theorem spells_dots (hw : ∀ s ∈ segs, Writes fl (segOf fl s).tok s) (h : Apart segs) :
    Spells fl (segToks fl segs) (dots segs) := by
  induction segs with
  | nil => exact .nil nofun
  | cons s segs ih =>
    have hs := hw s List.mem_cons_self
    have hrest := ih (fun t ht => hw t (List.mem_cons_of_mem s ht)) (List.isChain_cons.mp h).2
    have hseg : Spells fl ((segOf fl s).tok :: segToks fl segs) (s ++ dots segs) :=
      .tight hs (stops_dots h) hrest
    have hdot : Spells fl (.dot :: (segOf fl s).tok :: segToks fl segs) (['.'] ++ (s ++ dots segs)) :=
      .tight (.mark rfl) trivial hseg
    exact hdot

/-- The segments of a text that has tokens are numbers if they begin with digits. -/
theorem writes_of_ok (hsegs : ∀ s ∈ segs, Word s ∨ Numeric s) (h : Apart segs)
    {ts : List (Tok F)} (htok : tokenize fl (dots segs) = .ok ts) :
    ∀ s ∈ segs, Writes fl (segOf fl s).tok s := by
  induction segs generalizing ts with
  | nil => exact nofun
  | cons s segs ih =>
    have hs : Writes fl (segOf fl s).tok s ∧ ∃ ts', tokenize fl (dots segs) = .ok ts' := by
      have hdots : tokenize fl (dots (s :: segs)) =
          (tokenize fl (s ++ dots segs)).map (.dot :: ·) := tokenize_cons '.' (s ++ dots segs)
      rw [hdots] at htok
      obtain ⟨ts₁, htok, -⟩ := Descent.map_ok.mp htok
      rcases hsegs s List.mem_cons_self with hword | hnum
      · have hwrites : Writes fl (segOf fl s).tok s := writes_word hword
        obtain ⟨c, cs, rfl, hnext⟩ := nextTok_writes hwrites (stops_dots h)
        rw [List.cons_append, tokenize_cons, hnext] at htok
        obtain ⟨ts₂, htok, -⟩ := Descent.map_ok.mp htok
        exact ⟨hwrites, ts₂, htok⟩
      · have hread : ∃ c cs, s = c :: cs ∧ nextTok fl c (cs ++ dots segs) = _ :=
          nextTok_num hnum (digits_dots hnum.first h)
        obtain ⟨c, cs, rfl, hnext⟩ := hread
        rw [List.cons_append, tokenize_cons, hnext] at htok
        cases hparse : fl.parse (String.ofList (c :: cs)) with
        | none =>
          rw [hparse] at htok
          cases htok
        | some x =>
          rw [hparse] at htok
          obtain ⟨ts₂, htok, -⟩ := Descent.map_ok.mp htok
          exact ⟨writes_numeric hnum hparse, ts₂, htok⟩
    obtain ⟨hwrites, ts', htok'⟩ := hs
    have hrest := ih (fun t ht => hsegs t (List.mem_cons_of_mem s ht)) (List.isChain_cons.mp h).2 htok'
    intro t ht
    rcases List.mem_cons.mp ht with rfl | ht
    · exact hwrites
    · exact hrest t ht

/-! ## What a path is looked up by -/

/-- The key that a segment is looked up by. -/
def keyOf (fl : Floats F) (s : List Char) : String := (segOf fl s).key fl

variable {scope : String}

theorem eval_of_writes (hscope : Word scope.toList) (hkey : scope ∉ keywords)
    (hw : ∀ s ∈ segs, Writes fl (segOf fl s).tok s) (h : Apart segs) :
    eval fl ctx (scope.toList ++ dots segs) = .ok (lookup ctx (scope :: segs.map (keyOf fl))) := by
  have hspells : Spells fl (.ident scope :: segToks fl segs) (scope.toList ++ dots segs) :=
    .tight (.name hscope) (stops_ident scope segs) (spells_dots hw h)
  have hread : (Ast.path scope (segs.map (segOf fl))).Readable fl := hkey
  rw [eval_spells hread hspells, Ast.value, List.map_map]
  rfl

/-- **A path that has a value is looked up by the keys of its segments as they are taken.** -/
theorem eval_dotted (hscope : Word scope.toList) (hkey : scope ∉ keywords)
    (hsegs : ∀ s ∈ segs, Segment s) {v : Json}
    (hv : eval fl ctx (scope.toList ++ dots segs) = .ok v) :
    v = lookup ctx (scope :: (runs segs).map (keyOf fl)) := by
  have hruns := runs_word_or_numeric hsegs
  have hapart := runs_apart hsegs
  rw [← dots_runs] at hv
  have htok : ∃ ts, tokenize fl (dots (runs segs)) = .ok ts := by
    have hwrites : Writes fl (.ident scope) scope.toList := .name hscope
    obtain ⟨c, cs, heq, hnext⟩ := nextTok_writes hwrites (stops_ident scope (runs segs))
    rw [eval, heq, List.cons_append, tokenize_cons, hnext] at hv
    simp only [Except.bind] at hv
    cases htok : tokenize fl (dots (runs segs)) with
    | ok ts => exact ⟨ts, rfl⟩
    | error e =>
      rw [htok] at hv
      cases hv
  obtain ⟨ts, htok⟩ := htok
  rw [eval_of_writes hscope hkey (writes_of_ok hruns hapart htok) hapart] at hv
  exact (Except.ok.inj hv).symm

/-! ## Paths that are read as they are written -/

/-- A value with something at one path only. -/
def nest : List String → Json
  | [] => .bool true
  | s :: segs => .obj [(s, nest segs)]

theorem walk_nest {segs keys : List String} (h : walk (nest segs) keys = .bool true) :
    keys = segs := by
  induction segs generalizing keys with
  | nil =>
    cases keys with
    | nil => rfl
    | cons k keys =>
      have hnull : walk (nest []) (k :: keys) = .null := walk_null keys
      rw [hnull] at h
      cases h
  | cons s segs ih =>
    cases keys with
    | nil => cases h
    | cons k keys =>
      by_cases hk : k = s
      · subst hk
        have hstep : walk (nest (k :: segs)) (k :: keys) = walk (nest segs) keys := by
          simp [walk, nest, property, Json.Obj.get]
        rw [hstep] at h
        rw [ih h]
      · have hstep : walk (nest (s :: segs)) (k :: keys) = .null := by
          have hnone : property (nest (s :: segs)) k = .null := by
            simp [nest, property, Json.Obj.get, List.lookup_cons, beq_false_of_ne hk]
          have hwalk : walk (nest (s :: segs)) (k :: keys) =
              walk (property (nest (s :: segs)) k) keys := rfl
          rw [hwalk, hnone, walk_null]
        rw [hstep] at h
        cases h

/-- The digits of a number below the bound, without zeros in front. -/
def Canonical (s : String) : Prop := ∃ n < exactBound, s = toString n

/-- Segments that begin with digits are canonical, and no two of them are next to each other. -/
def Tidy (segs : List String) : Prop :=
  Apart (segs.map String.toList) ∧ ∀ s ∈ segs, StartsDigit s.toList → Canonical s

theorem Canonical.digits {s : String} (h : Canonical s) : Digits s.toList := by
  obtain ⟨n, -, rfl⟩ := h
  exact digits_toString n

theorem toDisplay_integer (hfl : fl.Lawful) (n : Nat) : toDisplay fl (.num n 0) = toString n :=
  hfl.toText_integer n

/-- A canonical index is looked up by itself. -/
theorem Canonical.read (hfl : fl.Lawful) {s : String} (h : Canonical s) :
    Writes fl (segOf fl s.toList).tok s.toList ∧ keyOf fl s.toList = s := by
  have hnum := h.digits.numeric
  obtain ⟨n, hn, rfl⟩ := h
  obtain ⟨x, hparse, hx⟩ := hfl.parse_toString hn
  have hparse : fl.parse (String.ofList (toString n).toList) = some x := by
    rw [String.ofList_toList, hparse]
  refine ⟨writes_numeric hnum hparse, ?_⟩
  rw [keyOf, segOf_numeric hnum hparse, Seg.key, hx, toDisplay_integer hfl]

/-- **Only a canonical index is looked up by itself.** -/
theorem canonical_of_key (hfl : fl.Lawful) {s : String} (hs : Digits s.toList)
    (hkey : keyOf fl s.toList = s) : Canonical s := by
  obtain ⟨x, hparse, hint⟩ := hfl.parse_digits _ hs
  rw [keyOf, segOf_numeric hs.numeric hparse, Seg.key, number] at hkey
  by_cases hn : numeral s.toList < exactBound
  · rw [if_pos hn] at hint
    rw [hint] at hkey
    exact ⟨numeral s.toList, hn, hkey.symm.trans (toDisplay_integer hfl _)⟩
  · rw [if_neg hn] at hint
    rw [hint] at hkey
    cases hnum : fl.toNumber x with
    | none =>
      rw [hnum] at hkey
      exact absurd (congrArg String.toList hkey).symm hs.1
    | some me =>
      obtain ⟨m, e⟩ := me
      rw [hnum] at hkey
      have hkey : fl.toText (.num m e) = s := hkey
      exact absurd (hkey ▸ hs) (hfl.toText_float x m e hint hnum)

variable {segs : List String}

theorem segment_toList (h : ∀ s ∈ segs, Segment s.toList) :
    ∀ t ∈ segs.map String.toList, Segment t := by
  intro t ht
  obtain ⟨s, hs, rfl⟩ := List.mem_map.mp ht
  exact h s hs

/-- A tidy path evaluates to what is there. -/
theorem eval_tidy (hfl : fl.Lawful) (hscope : Word scope.toList) (hkey : scope ∉ keywords)
    (hsegs : ∀ s ∈ segs, Segment s.toList) (htidy : Tidy segs) :
    eval fl ctx (dotted scope segs) = .ok (lookup ctx (scope :: segs)) := by
  have hread : ∀ s ∈ segs, Writes fl (segOf fl s.toList).tok s.toList ∧ keyOf fl s.toList = s := by
    intro s hs
    rcases hsegs s hs with hword | hdigits
    · refine ⟨writes_word hword, ?_⟩
      rw [keyOf, segOf_word hword, Seg.key, String.ofList_toList]
    · exact (htidy.2 s hs hdigits.startsDigit).read hfl
  have hkeys : (segs.map String.toList).map (keyOf fl) = segs := by
    rw [List.map_map]
    exact (List.map_congr_left fun s hs => (hread s hs).2).trans (List.map_id segs)
  rw [dotted, eval_of_writes hscope hkey _ htidy.1, hkeys]
  intro t ht
  obtain ⟨s, hs, rfl⟩ := List.mem_map.mp ht
  exact (hread s hs).1

/-- **A path at which there is something only there is read only if it is tidy.** -/
theorem tidy_of_eval (hfl : fl.Lawful) (hscope : Word scope.toList) (hkey : scope ∉ keywords)
    (hsegs : ∀ s ∈ segs, Segment s.toList)
    (h : eval fl [(scope, nest segs)] (dotted scope segs) = .ok (.bool true)) : Tidy segs := by
  have hlookup := eval_dotted hscope hkey (segment_toList hsegs) h
  have hwalk : walk (nest segs) ((runs (segs.map String.toList)).map (keyOf fl)) = .bool true := by
    rw [hlookup]
    simp [lookup, Json.Obj.get]
  have hkeys := walk_nest hwalk
  have hruns : runs (segs.map String.toList) = segs.map String.toList := by
    apply runs_eq
    have hlen := congrArg List.length hkeys
    rwa [List.length_map] at hlen ⊢
  refine ⟨hruns ▸ runs_apart (segment_toList hsegs), fun s hs hstart => ?_⟩
  have hdigits : Digits s.toList := (hsegs s hs).resolve_left
    fun hword => hword.not_startsDigit hstart
  rw [hruns, List.map_map] at hkeys
  have hself : ∀ t ∈ segs, keyOf fl t.toList = t := by
    rw [← List.map_inj_left, List.map_id']
    exact hkeys
  exact canonical_of_key hfl hdigits (hself s hs)

theorem walk_nest_self (segs : List String) : walk (nest segs) segs = .bool true := by
  induction segs with
  | nil => rfl
  | cons s segs ih =>
    have hstep : walk (nest (s :: segs)) (s :: segs) = walk (nest segs) segs := by
      simp [walk, nest, property, Json.Obj.get]
    rw [hstep, ih]

/-! ## Job ids -/

/-- Letters behind digits are a token of their own. -/
theorem eval_split (hfl : fl.Lawful) {ds w : List Char} (hds : Digits ds) (hw : Word w) :
    ∃ e, eval fl ctx ("needs".toList ++ dots [ds ++ w, "result".toList]) = .error e := by
  obtain ⟨x, hparse, -⟩ := hfl.parse_digits ds hds
  have hresult : Word "result".toList := by decide
  have hneeds : Word "needs".toList := by decide
  have hlast : Spells fl (segToks fl ["result".toList]) (dots ["result".toList]) :=
    spells_dots (by simpa using writes_word hresult) (.singleton _)
  have hletters : Spells fl (.ident (String.ofList w) :: segToks fl ["result".toList])
      (w ++ dots ["result".toList]) := .tight (.ident hw) (stops_ident _ _) hlast
  have hdigits : Spells fl (.num x :: .ident (String.ofList w) :: segToks fl ["result".toList])
      (ds ++ (w ++ dots ["result".toList])) := by
    refine .tight (.num hds.numeric hparse) ?_ hletters
    obtain ⟨c, cs, rfl, hc⟩ := hw.first
    have hpoint : c ≠ '.' := by
      rintro rfl
      exact absurd (hw.all '.' List.mem_cons_self) (by decide)
    change (digits (c :: (cs ++ _))).1 = []
    rw [digits, if_neg (by simp [hc, hpoint])]
  have htext : dots [ds ++ w, "result".toList] = ['.'] ++ (ds ++ (w ++ dots ["result".toList])) := by
    simp [dots]
  have hdot : Spells fl (.dot :: .num x :: .ident (String.ofList w) :: segToks fl ["result".toList])
      (dots [ds ++ w, "result".toList]) := by
    rw [htext]
    exact .tight (.mark rfl) trivial hdigits
  have hspells : Spells fl ((Ast.path "needs" [.index x]).tokens fl 0 ++
      .ident (String.ofList w) :: segToks fl ["result".toList])
      ("needs".toList ++ dots [ds ++ w, "result".toList]) :=
    .tight (.name hneeds) (stops_ident "needs" _) hdot
  refine ⟨.trailing ((Tok.ident (String.ofList w)).debug fl), ?_⟩
  have hread : (Ast.path "needs" [.index x]).Readable fl := (by decide : "needs" ∉ keywords)
  rw [eval_trailing hread _ hspells, Ast.value]
  · rfl
  · rintro _ ⟨⟩
    trivial

/-- A job id is an identifier, an index, or digits with letters behind them. -/
theorem segment_of_isJobId {j : String} (h : isJobId j = true) :
    Segment j.toList ∨ ∃ ds w, j.toList = ds ++ w ∧ Digits ds ∧ Word w := by
  simp only [isJobId, Bool.and_eq_true, Bool.not_eq_true', decide_eq_true_eq,
    List.all_eq_true] at h
  obtain ⟨⟨hne, -⟩, hall⟩ := h
  have hident : ∀ c ∈ j.toList, isIdentChar c = true := by
    intro c hc
    have hcases := hall c hc
    simp only [Bool.or_eq_true, decide_eq_true_eq] at hcases
    rcases hcases with (hc | hc) | hc <;> simp [isIdentChar, hc]
  have hlist : j.toList ≠ [] := by
    rintro heq
    rw [← String.ofList_toList (s := j), heq] at hne
    cases hne
  have hsplit := List.takeWhile_append_dropWhile (p := Char.isDigit) (l := j.toList)
  cases hds : j.toList.takeWhile Char.isDigit with
  | nil =>
    obtain ⟨c, cs, heq⟩ := List.exists_cons_of_ne_nil hlist
    rw [heq, List.takeWhile_cons] at hds
    refine Or.inl (Or.inl ⟨⟨c, cs, heq, ?_⟩, hident⟩)
    rw [← Bool.not_eq_true]
    intro hc
    rw [if_pos hc] at hds
    cases hds
  | cons d ds =>
    have hdigits : Digits (d :: ds) := ⟨List.cons_ne_nil d ds, fun c hc =>
      List.mem_takeWhile_imp (hds ▸ hc)⟩
    cases hw : j.toList.dropWhile Char.isDigit with
    | nil =>
      rw [hds, hw, List.append_nil] at hsplit
      exact Or.inl (Or.inr (hsplit ▸ hdigits))
    | cons c w =>
      have hc : c.isDigit = false := by
        have hhead := List.head?_dropWhile_not Char.isDigit j.toList
        rw [hw] at hhead
        simpa using hhead
      refine Or.inr ⟨d :: ds, c :: w, by rw [← hsplit, hds, hw], hdigits, ⟨c, w, rfl, hc⟩, ?_⟩
      intro e he
      exact hident e (hsplit ▸ List.mem_append_right _ (hw ▸ he))

/-! ## Ids and paths that are read -/

theorem not_startsDigit_result : ¬ StartsDigit "result".toList := by decide

/-- A job id as it is read in `needs.<id>.result`. -/
theorem eval_needs_iff (hfl : fl.Lawful) {j : String} (hj : isJobId j = true) :
    (∀ (ctx needs : Json.Obj) (v : Json), Json.Obj.get ctx "needs" = some (.obj needs) →
      (∀ m ∈ needs, isJobId m.1 = true) → Json.Obj.get needs j = some v →
      eval fl ctx (dotted "needs" [j, "result"]) = .ok (property v "result")) ↔
    (StartsDigit j.toList → Canonical j) := by
  have hscope : Word "needs".toList := by decide
  have hresult : Word "result".toList := by decide
  rcases segment_of_isJobId hj with hseg | ⟨ds, w, heq, hds, hw⟩
  · have hsegs : ∀ s ∈ [j, "result"], Segment s.toList := by
      simp only [List.mem_cons, List.not_mem_nil, or_false, forall_eq_or_imp, forall_eq]
      exact ⟨hseg, Or.inl hresult⟩
    constructor
    · intro hall hstart
      have heval := hall [("needs", nest [j, "result"])] [(j, nest ["result"])] (nest ["result"]) rfl
        (by simpa using hj) (by simp [Json.Obj.get])
      exact (tidy_of_eval hfl hscope (by decide) hsegs heval).2 j List.mem_cons_self hstart
    · intro hj ctx needs v hneeds _ hv
      have htidy : Tidy [j, "result"] := by
        refine ⟨.cons_cons (fun h => not_startsDigit_result h.2) (.singleton _), ?_⟩
        intro s hs hstart
        rcases List.mem_cons.mp hs with rfl | hs
        · exact hj hstart
        · rw [List.mem_singleton.mp hs] at hstart
          exact absurd hstart not_startsDigit_result
      rw [eval_tidy hfl hscope (by decide) hsegs htidy, lookup, hneeds]
      simp [walk, property, hv]
  · have hsplit : ∀ ctx, ∃ e, eval fl ctx (dotted "needs" [j, "result"]) = .error e := by
      intro ctx
      rw [dotted, List.map_cons, heq]
      exact eval_split hfl hds hw
    refine iff_of_false ?_ ?_
    · intro hall
      obtain ⟨e, he⟩ := hsplit [("needs", nest [j, "result"])]
      have heval := hall [("needs", nest [j, "result"])] [(j, nest ["result"])] (nest ["result"]) rfl
        (by simpa using hj) (by simp [Json.Obj.get])
      rw [he] at heval
      cases heval
    · intro hj
      obtain ⟨c, cs, rfl, hc⟩ := hw.first
      have hstart : StartsDigit j.toList := by
        obtain ⟨d, ds', rfl, hd⟩ := hds.startsDigit
        exact ⟨d, ds' ++ c :: cs, heq, hd⟩
      have hdigit := (hj hstart).digits.2 c (heq ▸ List.mem_append_right _ List.mem_cons_self)
      rw [hc] at hdigit
      cases hdigit

/-- A path as it is read from its scope. -/
theorem eval_path_iff (hfl : fl.Lawful) (hscope : Word scope.toList) (hkey : scope ∉ keywords)
    (hsegs : ∀ s ∈ segs, Segment s.toList) :
    (∀ (ctx : Json.Obj) (v : Json), Json.Obj.get ctx scope = some v →
      eval fl ctx (dotted scope segs) = .ok (walk v segs)) ↔ Tidy segs := by
  constructor
  · intro hall
    have heval := hall [(scope, nest segs)] (nest segs) (by simp [Json.Obj.get])
    rw [walk_nest_self] at heval
    exact tidy_of_eval hfl hscope hkey hsegs heval
  · intro htidy ctx v hv
    rw [eval_tidy hfl hscope hkey hsegs htidy, lookup, hv]

/-- **Which job ids and which paths are read.** An id that begins with a digit has to be canonical, and
so has an index, which moreover must not be next to another one. -/
theorem dotted_iff (hfl : fl.Lawful) :
    (∀ j, isJobId j = true →
      ((∀ (ctx needs : Json.Obj) (v : Json), Json.Obj.get ctx "needs" = some (.obj needs) →
        (∀ m ∈ needs, isJobId m.1 = true) → Json.Obj.get needs j = some v →
        eval fl ctx (dotted "needs" [j, "result"]) = .ok (property v "result")) ↔
      (StartsDigit j.toList → Canonical j))) ∧
    ∀ (scope : String) (segs : List String), Word scope.toList → scope ∉ keywords →
      (∀ s ∈ segs, Segment s.toList) →
      ((∀ (ctx : Json.Obj) (v : Json), Json.Obj.get ctx scope = some v →
        eval fl ctx (dotted scope segs) = .ok (walk v segs)) ↔ Tidy segs) :=
  ⟨fun _ hj => eval_needs_iff hfl hj, fun _ _ hscope hkey hsegs => eval_path_iff hfl hscope hkey hsegs⟩

theorem build_read : eval Floats.whole [("needs", .obj [("build", .obj [("result", .str "success")])])]
    (dotted "needs" ["build", "result"]) = .ok (.str "success") :=
  ((dotted_iff lawful_whole).1 "build" (by decide)).mpr (fun h => absurd h (by decide)) _
    [("build", .obj [("result", .str "success")])] _ rfl (by decide) rfl

theorem leading_digit_unread : isJobId "1build" = true ∧
    eval Floats.whole [("needs", .obj [("1build", .obj [("result", .str "success")])])]
      (dotted "needs" ["1build", "result"]) ≠ .ok (.str "success") := by
  refine ⟨by decide, ?_⟩
  decide +kernel

end HeyoCi.Expr
