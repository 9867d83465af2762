import HeyoCi.Expr.Dotted
import HeyoCi.Expr.Template

/-!
# String literals

* `readAs_eq_iff`: a literal is read as itself exactly if it is ASCII;
* `Shielded`, `closable_literal`: the braces of a literal are inside of quotes;
* `eval_literal`, `substitute_literal`, `eval_branch`: the value of a literal, its place in a text, and
  what is equal to it;
* **`literal_iff`**: a literal stands for itself exactly if it is ASCII.
-/

namespace HeyoCi.Expr

variable {F : Type} {fl : Floats F} {ctx : Json.Obj} {s gap gap' : List Char} {c : Char}

/-! ## Bytes and characters -/

theorem length_bytesAsChars (c : Char) : (bytesAsChars c).length = c.utf8Size := by
  rw [bytesAsChars, List.length_map, String.length_utf8EncodeChar]

theorem bytesAsChars_ascii (h : c.val ≤ 127) : bytesAsChars c = [c] := by
  have hsize : c.utf8Size = 1 := Char.utf8Size_eq_one_iff.mpr h
  have hval : c.val.toUInt8.toNat = c.toNat := by
    have hlt : c.val.toNat ≤ 127 := h
    simp only [UInt32.toNat_toUInt8, Char.toNat]
    omega
  rw [bytesAsChars, String.utf8EncodeChar_eq_singleton hsize, List.map_singleton, hval,
    Char.ofNat_toNat]

theorem length_readAs (s : List Char) : s.length ≤ (readAs s).length := by
  induction s with
  | nil => exact Nat.le_refl 0
  | cons c s ih =>
    have hpos := c.utf8Size_pos
    rw [readAs, List.flatMap_cons, List.length_append, length_bytesAsChars, List.length_cons]
    change _ ≤ _ + (readAs s).length
    omega

/-- **A text is what its bytes are as characters exactly if it is ASCII.** -/
theorem readAs_eq_iff : readAs s = s ↔ Ascii s := by
  constructor
  · intro h
    induction s with
    | nil => exact nofun
    | cons c s ih =>
      have hcons : readAs (c :: s) = bytesAsChars c ++ readAs s := List.flatMap_cons
      have hlen := congrArg List.length h
      have hle := length_readAs s
      have hpos := c.utf8Size_pos
      rw [hcons, List.length_append, length_bytesAsChars, List.length_cons] at hlen
      have hc : c.val ≤ 127 := Char.utf8Size_eq_one_iff.mp (by omega)
      rw [hcons, bytesAsChars_ascii hc] at h
      intro d hd
      rcases List.mem_cons.mp hd with rfl | hd
      · exact hc
      · exact ih (List.cons.inj h).2 d hd
  · intro h
    induction s with
    | nil => rfl
    | cons c s ih =>
      have hcons : readAs (c :: s) = bytesAsChars c ++ readAs s := List.flatMap_cons
      rw [hcons, bytesAsChars_ascii (h c List.mem_cons_self),
        ih fun d hd => h d (List.mem_cons_of_mem c hd)]
      rfl

/-! ## Braces in a literal -/

/-- Every closing brace of a body has a quote open before it. -/
def Shielded (quote : Option Char) (body : List Char) : Prop :=
  ∀ u w, body = u ++ '}' :: w → u.foldl quoteStep quote ≠ none

variable {quote : Option Char} {as bs : List Char}

theorem shielded_plain (h : '}' ∉ as) : Shielded quote as :=
  fun u w heq => absurd (heq ▸ by simp) h

theorem Shielded.append (ha : Shielded quote as) (hb : Shielded (as.foldl quoteStep quote) bs) :
    Shielded quote (as ++ bs) := by
  intro u w heq
  rcases List.append_eq_append_iff.mp heq with ⟨v, rfl, hv⟩ | ⟨v, rfl, hv⟩
  · rw [List.foldl_append]
    exact hb v w hv
  · cases v with
    | nil =>
      rw [List.append_nil] at hb
      exact hb [] w hv.symm
    | cons d v =>
      obtain ⟨rfl, -⟩ := List.cons.inj hv
      exact ha u v rfl

theorem closable_of_shielded (hbalanced : as.foldl quoteStep none = none)
    (h : Shielded none as) : Closable none as where
  balanced := hbalanced
  inside u w heq := h u ('}' :: w) heq
  last u heq := h u [] heq

/-- Inside of a literal the quote stays open. -/
theorem foldl_doubled (s : List Char) :
    (doubled s).foldl quoteStep (some '\'') = some '\'' ∧ Shielded (some '\'') (doubled s) := by
  induction s with
  | nil => exact ⟨rfl, shielded_plain nofun⟩
  | cons c s ih =>
    have hcons : doubled (c :: s) = (if c = '\'' then ['\'', '\''] else [c]) ++ doubled s :=
      List.flatMap_cons
    have hfold : (if c = '\'' then ['\'', '\''] else [c]).foldl quoteStep (some '\'') =
        some '\'' := by
      split_ifs with hc
      · rfl
      · exact if_neg hc
    have hhead : Shielded (some '\'') (if c = '\'' then ['\'', '\''] else [c]) := by
      split_ifs with hc
      · exact shielded_plain (by decide)
      · rintro (_ | ⟨d, u⟩) w heq
        · exact nofun
        · cases u <;> cases heq
    rw [hcons]
    refine ⟨by rw [List.foldl_append, hfold, ih.1], hhead.append ?_⟩
    rw [hfold]
    exact ih.2

theorem blank_plain (h : Blank gap) : gap.foldl quoteStep none = none ∧ '}' ∉ gap := by
  refine ⟨?_, fun hmem => absurd (h '}' hmem) (by decide)⟩
  induction gap with
  | nil => rfl
  | cons c gap ih =>
    have hc : ¬ (c = '\'' ∨ c = '"') := by
      rintro (rfl | rfl) <;> exact absurd (h _ List.mem_cons_self) (by decide)
    rw [List.foldl_cons, quoteStep, if_neg hc]
    exact ih fun d hd => h d (List.mem_cons_of_mem c hd)

/-- A literal with white space around it closes at its end. -/
theorem closable_literal (hgap : Blank gap) (hgap' : Blank gap') (s : List Char) :
    Closable none (gap ++ (literal s ++ gap')) := by
  obtain ⟨hfold, hplain⟩ := blank_plain hgap
  obtain ⟨hfold', hplain'⟩ := blank_plain hgap'
  obtain ⟨hquoted, hshielded⟩ := foldl_doubled s
  have hliteral : (literal s).foldl quoteStep none = none := by
    change (doubled s ++ ['\'']).foldl quoteStep (some '\'') = none
    rw [List.foldl_append, hquoted]
    rfl
  have hbody : Shielded none (literal s) := by
    have hopen : Shielded none ['\''] := shielded_plain (by decide)
    have hclose : Shielded ((doubled s).foldl quoteStep (some '\'')) ['\''] := shielded_plain (by decide)
    exact hopen.append (hshielded.append hclose)
  apply closable_of_shielded
  · rw [List.foldl_append, hfold, List.foldl_append, hliteral, hfold']
  · apply (shielded_plain hplain).append
    rw [hfold]
    exact hbody.append (shielded_plain hplain')

/-! ## Their values -/

theorem blank_head (h : Blank gap) : ∀ c ∈ gap.head?, isAsciiWhitespace c = true := by
  intro c hc
  exact h c (List.mem_of_mem_head? hc)

theorem spells_literal (hgap : Blank gap) (hgap' : Blank gap') (s : List Char) :
    Spells fl [.str (String.ofList (readAs s))] (gap ++ (literal s ++ gap')) :=
  .cons hgap (.single s) (stops_of_blank (blank_head hgap') _) (.nil hgap')

/-- A literal evaluates to its bytes. -/
theorem eval_literal (hgap : Blank gap) (hgap' : Blank gap') (s : List Char) :
    eval fl ctx (gap ++ (literal s ++ gap')) = .ok (.str (String.ofList (readAs s))) :=
  eval_spells (e := .lit (.str _)) trivial (spells_literal hgap hgap' s)

/-- In a text its bytes are where the literal was. -/
theorem substitute_literal {parts : List Part} (h : Template parts) (hgap : Blank gap)
    (hgap' : Blank gap') (s post : List Char) :
    substituteChars fl ctx (parts.flatMap Part.source ++
      ((Part.expr (gap ++ (literal s ++ gap'))).source ++ post)) =
    parts.flatMap (Part.out fl ctx) ++ (readAs s ++ substituteChars fl ctx post) := by
  have hopen : opening <+: (Part.expr (gap ++ (literal s ++ gap'))).source ++ post := by
    simp [Part.source]
  rw [substituteChars_template fl ctx h (Or.inr hopen)]
  have hpieces := pieces_expr (closable_literal hgap hgap' s) post
  change _ ++ (pieces ((Piece.expr (gap ++ (literal s ++ gap'))).source ++ post)).flatMap
    (render fl ctx) = _
  rw [hpieces, List.flatMap_cons, render, eval_literal hgap hgap' s]
  simp only [toDisplay, String.toList_ofList]
  rfl

/-- A branch is compared with the bytes of a literal. -/
theorem eval_branch {b : String} (hb : lookup ctx ["ci", "branch"] = .str b) (s : List Char) :
    eval fl ctx ("ci.branch == ".toList ++ literal s) =
      .ok (.bool (decide (b = String.ofList (readAs s)))) := by
  have hci : Writes fl (.ident "ci") "ci".toList := .name (by decide)
  have hbranch : Writes fl (.ident "branch") "branch".toList := .name (by decide)
  have hblank : ∀ cs, ∀ c ∈ (' ' :: cs : List Char).head?, isAsciiWhitespace c = true := by
    rintro cs c hc
    obtain rfl : ' ' = c := Option.some.inj hc
    rfl
  have hpoint : ∀ cs, Stops (.ident "ci" : Tok F) ('.' :: cs) := by
    intro cs c hc
    obtain rfl : '.' = c := Option.some.inj hc
    rfl
  have hliteral : Spells fl [.str (String.ofList (readAs s))] ([' '] ++ (literal s ++ [])) :=
    spells_literal (by decide) (by decide) s
  have hop : Spells fl [.eqEq, .str (String.ofList (readAs s))]
      ([' '] ++ (['=', '='] ++ ([' '] ++ (literal s ++ [])))) :=
    .cons (by decide) (.mark rfl) trivial hliteral
  have hspells : Spells fl [.ident "ci", .dot, .ident "branch", .eqEq, .str (String.ofList (readAs s))]
      ("ci".toList ++ (['.'] ++ ("branch".toList ++ ([' '] ++ (['=', '='] ++ ([' '] ++
        (literal s ++ []))))))) :=
    .tight hci (hpoint _) <| .tight (.mark rfl) trivial <|
      .tight hbranch (stops_of_blank (hblank _) _) hop
  have htext : "ci.branch == ".toList ++ literal s = "ci".toList ++ (['.'] ++ ("branch".toList ++
      ([' '] ++ (['=', '='] ++ ([' '] ++ (literal s ++ [])))))) := by
    rw [List.append_nil]
    rfl
  have hread : (Ast.cmp .eq (.path "ci" [.name "branch"]) (.lit (.str
      (String.ofList (readAs s)))) : Ast F).Readable fl := ⟨(by decide : "ci" ∉ keywords), trivial⟩
  rw [htext, eval_spells hread hspells]
  simp only [Ast.value, List.map_cons, List.map_nil, Seg.key, hb, Except.bind, Except.map, Lit.value]
  rfl

/-- **A literal stands for itself exactly if it is ASCII**: its value, what it is replaced by in a text,
and what is equal to it. -/
theorem literal_iff (fl : Floats F) (s : String) :
    ((∀ ctx, eval fl ctx (literal s.toList) = .ok (.str s)) ↔ Ascii s.toList) ∧
    ((∀ ctx parts gap gap' post, Template parts → Blank gap → Blank gap' →
      substitute fl ctx (String.ofList (parts.flatMap Part.source ++
        ((Part.expr (gap ++ (literal s.toList ++ gap'))).source ++ post))) =
      String.ofList (parts.flatMap (Part.out fl ctx) ++
        (s.toList ++ substituteChars fl ctx post))) ↔ Ascii s.toList) ∧
    ((∀ ctx b, lookup ctx ["ci", "branch"] = .str b →
      eval fl ctx ("ci.branch == ".toList ++ literal s.toList) = .ok (.bool (decide (b = s)))) ↔
        Ascii s.toList) := by
  have hascii : Ascii s.toList ↔ String.ofList (readAs s.toList) = s := by
    rw [← readAs_eq_iff, ← String.toList_inj, String.toList_ofList]
  have hliteral : ∀ ctx, eval fl ctx (literal s.toList) =
      .ok (.str (String.ofList (readAs s.toList))) := by
    intro ctx
    have heval : eval fl ctx ([] ++ (literal s.toList ++ [])) = _ :=
      eval_literal (by decide) (by decide) s.toList
    rwa [List.append_nil] at heval
  refine ⟨?_, ?_, ?_⟩
  · simp only [hliteral, Except.ok.injEq, Json.str.injEq, forall_const, hascii]
  · have hplace : ∀ ctx parts gap gap' post, Template parts → Blank gap → Blank gap' →
        (substitute fl ctx (String.ofList (parts.flatMap Part.source ++
          ((Part.expr (gap ++ (literal s.toList ++ gap'))).source ++ post))) =
        String.ofList (parts.flatMap (Part.out fl ctx) ++
          (s.toList ++ substituteChars fl ctx post)) ↔ Ascii s.toList) := by
      intro ctx parts gap gap' post hparts hgap hgap'
      rw [substitute, String.toList_ofList, substitute_literal hparts hgap hgap', String.ofList_inj,
        List.append_cancel_left_eq, List.append_cancel_right_eq, readAs_eq_iff]
    constructor
    · intro hall
      exact (hplace [] [] [] [] [] template_nil (by decide) (by decide)).mp
        (hall [] [] [] [] [] template_nil (by decide) (by decide))
    · intro h ctx parts gap gap' post hparts hgap hgap'
      exact (hplace ctx parts gap gap' post hparts hgap hgap').mpr h
  · constructor
    · intro hall
      have hself := hall [("ci", .obj [("branch", .str s)])] s rfl
      rw [eval_branch rfl s.toList] at hself
      rw [hascii]
      simpa [eq_comm] using hself
    · intro h ctx b hb
      rw [eval_branch hb, hascii.mp h]

theorem accent_changed : eval Floats.absent [] (literal "é".toList) ≠ .ok (.str "é") := by
  decide

end HeyoCi.Expr
