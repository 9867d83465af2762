import HeyoCi.Expr.Substitute

/-!
# Templates

A text that is put together of literals and expressions is taken apart again.

* `quoteStep`, `Closable`: where quotes are open, and a body that braces close at its end;
* **`findClose_append`**: the end that is found is that of the body;
* `Part`, `Template`: literals and expressions, and when they are what they look like;
* `pieces_append`, **`pieces_template`**: the pieces of a template are its parts;
* **`substitute_template`**: its substitution is that of its parts.
-/

namespace HeyoCi.Expr

/-! ## Quotes -/

/-- The quote that is open behind a character. A doubled quote closes a literal and opens it again. -/
def quoteStep : Option Char → Char → Option Char
  | none, c => if c = '\'' ∨ c = '"' then some c else none
  | some quote, c => if c = quote then none else some quote

/-- The quotes of a body are balanced, from where `quote` is open, it has no closing braces outside of
quotes, and braces behind it close it no earlier. -/
structure Closable (quote : Option Char) (body : List Char) : Prop where
  balanced : body.foldl quoteStep quote = none
  inside : ∀ u w, body = u ++ '}' :: '}' :: w → u.foldl quoteStep quote ≠ none
  last : ∀ u, body = u ++ ['}'] → u.foldl quoteStep quote ≠ none

variable {quote : Option Char} {c : Char} {cs body rest : List Char}

theorem Closable.tail (h : Closable quote (c :: cs)) : Closable (quoteStep quote c) cs where
  balanced := h.balanced
  inside u w heq := h.inside (c :: u) w (by rw [heq, List.cons_append])
  last u heq := h.last (c :: u) (by rw [heq, List.cons_append])

/-- A brace outside of quotes has something else behind it. -/
theorem Closable.ne_closing (h : Closable none ('}' :: cs)) :
    ∃ d ds, cs = d :: ds ∧ d ≠ '}' := by
  cases cs with
  | nil => exact absurd rfl (h.last [] rfl)
  | cons d ds =>
    refine ⟨d, ds, rfl, ?_⟩
    rintro rfl
    exact absurd rfl (h.inside [] ds rfl)

/-- A body without braces closes at its end if its quotes do. -/
theorem closable_of_plain (hquotes : body.foldl quoteStep none = none) (hbody : '}' ∉ body) :
    Closable none body where
  balanced := hquotes
  inside u w heq := absurd (heq ▸ by simp) hbody
  last u heq := absurd (heq ▸ by simp) hbody

/-! ## The end of a body -/

theorem findClose_open (h : c = '\'' ∨ c = '"') : findClose none (c :: cs) =
    (findClose (some c) cs).map fun (body, rest) => (c :: body, rest) := by
  rw [findClose.eq_def]
  rcases h with rfl | rfl <;> rfl

theorem findClose_text (hquote : ¬ (c = '\'' ∨ c = '"'))
    (hbrace : c = '}' → ∃ d ds, cs = d :: ds ∧ d ≠ '}') : findClose none (c :: cs) =
      (findClose none cs).map fun (body, rest) => (c :: body, rest) := by
  rw [findClose]
  · rw [if_neg (by simpa using hquote)]
  · rintro r rfl rfl
    obtain ⟨d, ds, heq, hd⟩ := hbrace rfl
    cases heq
    exact hd rfl

theorem findClose_quoted {q : Char} (h : c ≠ q) : findClose (some q) (c :: cs) =
    (findClose (some q) cs).map fun (body, rest) => (c :: body, rest) := by
  rw [findClose.eq_def]
  simp only [if_neg h]

theorem findClose_doubled : findClose (some '\'') ('\'' :: '\'' :: cs) =
    (findClose (some '\'') cs).map fun (body, rest) => ('\'' :: '\'' :: body, rest) := by
  rw [findClose.eq_def]
  rfl

theorem findClose_shut {q : Char} (h : q = '\'' → cs.head? ≠ some '\'') :
    findClose (some q) (q :: cs) =
      (findClose none cs).map fun (body, rest) => (q :: body, rest) := by
  rw [findClose.eq_def]
  simp only [if_true]
  split
  · rename_i ds
    rw [if_neg fun hq => h hq rfl]
  · rfl

/-- **The braces behind a body close it.** -/
theorem findClose_append : ∀ {quote : Option Char} {body : List Char}, Closable quote body →
    findClose quote (body ++ (closing ++ rest)) = some (body, rest)
  | none, [], _ => rfl
  | some _, [], h => nomatch h.balanced
  | none, c :: cs, h => by
    have ih := findClose_append h.tail
    by_cases hquote : c = '\'' ∨ c = '"'
    · rw [quoteStep, if_pos hquote] at ih
      rw [List.cons_append, findClose_open hquote, ih, Option.map_some]
    · rw [quoteStep, if_neg hquote] at ih
      rw [List.cons_append, findClose_text hquote, ih, Option.map_some]
      rintro rfl
      obtain ⟨d, ds, rfl, hd⟩ := h.ne_closing
      exact ⟨d, ds ++ (closing ++ rest), rfl, hd⟩
  | some quote, c :: cs, h => by
    by_cases hc : c = quote
    · subst hc
      by_cases hdouble : c = '\'' ∧ cs.head? = some '\''
      · -- the two quotes leave the literal open
        obtain ⟨rfl, hhead⟩ := hdouble
        obtain ⟨ds, rfl⟩ := List.head?_eq_some_iff.mp hhead
        have ih : findClose (some '\'') (ds ++ (closing ++ rest)) = some (ds, rest) :=
          findClose_append h.tail.tail
        rw [List.cons_append, List.cons_append, findClose_doubled, ih, Option.map_some]
      · have ih := findClose_append h.tail
        rw [quoteStep, if_pos rfl] at ih
        rw [List.cons_append, findClose_shut, ih, Option.map_some]
        intro hq hhead
        cases cs with
        | nil => cases hhead
        | cons d ds => exact hdouble ⟨hq, hhead⟩
    · have ih := findClose_append h.tail
      rw [quoteStep, if_neg hc] at ih
      rw [List.cons_append, findClose_quoted hc, ih, Option.map_some]
termination_by _ body => body.length

/-! ## The pieces of a template -/

theorem piecesFrom_eq (skip : Nat) (cs : List Char) : piecesFrom skip cs = pieces (cs.drop skip) := by
  induction cs generalizing skip with
  | nil =>
    rw [List.drop_nil]
    cases skip <;> rfl
  | cons c cs ih =>
    cases skip with
    | zero => rfl
    | succ skip => rw [piecesFrom, ih, List.drop_succ_cons]

theorem pieces_expr (h : Closable none body) (rest : List Char) :
    pieces ((Piece.expr body).source ++ rest) = .expr body :: pieces rest := by
  have hsource : (Piece.expr body).source ++ rest =
      '$' :: '{' :: '{' :: (body ++ (closing ++ rest)) := by
    simp [Piece.source, opening]
  rw [hsource, pieces, piecesFrom, if_pos (by rfl)]
  simp only [List.drop_succ_cons, List.drop_zero, findClose_append h]
  rw [piecesFrom_eq]
  congr 2
  simp [closing, List.drop_append]

/-- No opening begins in a text and ends in another one behind it. -/
theorem infix_of_starts (hrest : rest = [] ∨ opening <+: rest)
    (h : opening <+: c :: (cs ++ rest)) : opening <:+: c :: cs := by
  -- what is behind the text does not go on with a brace
  have hbrace : ∀ more, ¬ '{' :: more <+: rest := by
    rintro more ⟨t, ht⟩
    rcases hrest with rfl | ⟨u, rfl⟩
    · cases ht
    · cases ht
  obtain ⟨rfl, hcs⟩ := List.cons_prefix_cons.mp h
  match cs, hcs with
  | [], hcs => exact absurd hcs (hbrace _)
  | [d], hcs => exact absurd (List.cons_prefix_cons.mp hcs).2 (hbrace _)
  | d :: e :: cs, hcs =>
    obtain ⟨rfl, he⟩ := List.cons_prefix_cons.mp hcs
    obtain ⟨rfl, -⟩ := List.cons_prefix_cons.mp he
    exact ⟨[], cs, rfl⟩

/-- A text without an opening is text, also before an expression. -/
theorem pieces_append (hrest : rest = [] ∨ opening <+: rest) (h : ¬ opening <:+: cs) :
    pieces (cs ++ rest) = cs.map .char ++ pieces rest := by
  induction cs with
  | nil => rfl
  | cons c cs ih =>
    have hhead : ¬ opening.isPrefixOf (c :: (cs ++ rest)) = true := fun hpre =>
      h (infix_of_starts hrest (List.isPrefixOf_iff_prefix.mp hpre))
    have htail : ¬ opening <:+: cs := fun hin => h (List.infix_cons hin)
    rw [List.cons_append, pieces, piecesFrom, if_neg hhead, List.map_cons, List.cons_append, ← ih htail]
    rfl

/-! ## Templates -/

/-- A part of a template: a literal, or the body of an expression. -/
inductive Part where
  | lit (text : List Char)
  | expr (body : List Char)
  deriving Repr, DecidableEq

/-- How a part is written. -/
def Part.source : Part → List Char
  | lit text => text
  | expr body => opening ++ body ++ closing

/-- The text of a part in a context. A literal stays, and so does an expression without a value. -/
def Part.out {F : Type} (fl : Floats F) (ctx : Json.Obj) : Part → List Char
  | lit text => text
  | expr body => match eval fl ctx body with
    | .ok v => (toDisplay fl v).toList
    | .error _ => opening ++ body ++ closing

/-- The bodies close at their ends, and literals next to each other have no opening in them, nor
across them. -/
structure Template (parts : List Part) : Prop where
  bodies : ∀ body, .expr body ∈ parts → Closable none body
  literals : ∀ run : List (List Char), run.map .lit <:+: parts → ¬ opening <:+: run.flatten

variable {parts : List Part}

/-- Literals without braces have no opening in them. -/
theorem template_of_plain (hbodies : ∀ body, .expr body ∈ parts → Closable none body)
    (hlits : ∀ text, .lit text ∈ parts → '{' ∉ text) : Template parts where
  bodies := hbodies
  literals run hrun hopen := by
    have hbrace : '{' ∈ run.flatten := hopen.subset (by simp [opening])
    obtain ⟨text, htext, hmem⟩ := List.mem_flatten.mp hbrace
    exact hlits text (hrun.subset (List.mem_map.mpr ⟨text, htext, rfl⟩)) hmem

theorem Template.of_infix {sub : List Part} (h : Template parts) (hsub : sub <:+: parts) :
    Template sub where
  bodies body hb := h.bodies body (hsub.subset hb)
  literals run hrun := h.literals run (hrun.trans hsub)

theorem template_nil : Template [] :=
  template_of_plain (fun _ h => absurd h List.not_mem_nil) fun _ h => absurd h List.not_mem_nil

/-- The pieces of a part. -/
def Part.pieces : Part → List Piece
  | lit text => text.map .char
  | expr body => [.expr body]

theorem flatMap_source_lit (run : List (List Char)) :
    (run.map Part.lit).flatMap Part.source = run.flatten := by
  rw [List.flatMap_map]
  exact List.flatMap_id'

theorem flatMap_pieces_lit (run : List (List Char)) :
    (run.map Part.lit).flatMap Part.pieces = run.flatten.map .char := by
  rw [List.flatMap_map, List.map_flatten]
  exact List.flatMap_def ..

/-- The literals that a template begins with, and the expression behind them. -/
theorem parts_run (parts : List Part) : ∃ run : List (List Char), parts = run.map .lit ∨
    ∃ body later, parts = run.map .lit ++ .expr body :: later := by
  induction parts with
  | nil => exact ⟨[], .inl rfl⟩
  | cons p parts ih =>
    cases p with
    | expr body => exact ⟨[], .inr ⟨body, parts, rfl⟩⟩
    | lit text =>
      obtain ⟨run, rfl | ⟨body, later, rfl⟩⟩ := ih
      · exact ⟨text :: run, .inl rfl⟩
      · exact ⟨text :: run, .inr ⟨body, later, rfl⟩⟩

/-- **The pieces of a template are those of its parts**, also before another expression. -/
theorem pieces_template (h : Template parts) (hrest : rest = [] ∨ opening <+: rest) :
    pieces (parts.flatMap Part.source ++ rest) = parts.flatMap Part.pieces ++ pieces rest := by
  induction hn : parts.length using Nat.strong_induction_on generalizing parts with
  | _ n ih =>
    obtain ⟨run, rfl | ⟨body, later, rfl⟩⟩ := parts_run parts
    · rw [flatMap_source_lit, flatMap_pieces_lit]
      exact pieces_append hrest (h.literals run (List.infix_refl _))
    · have hrun : ¬ opening <:+: run.flatten :=
        h.literals run (List.infix_append [] (run.map Part.lit) _)
      have hlater : Template later := h.of_infix ⟨run.map Part.lit ++ [.expr body], [], by simp⟩
      have ih := ih later.length (by rw [← hn]; simp; omega) hlater rfl
      simp only [List.flatMap_append, List.flatMap_cons, flatMap_source_lit, flatMap_pieces_lit,
        List.append_assoc]
      rw [pieces_append (.inr (by simp [Part.source])) hrun]
      have hbody := pieces_expr (h.bodies body (by simp)) (later.flatMap Part.source ++ rest)
      rw [show Part.source (.expr body) = Piece.source (.expr body) from rfl, hbody, ih]
      rfl

/-! ## Their substitution -/

section

variable {F : Type} (fl : Floats F) (ctx : Json.Obj)

theorem Part.flatMap_render (p : Part) : p.pieces.flatMap (render fl ctx) = p.out fl ctx := by
  cases p with
  | lit text => exact (List.flatMap_map ..).trans (List.flatMap_singleton' text)
  | expr body => exact List.flatMap_singleton ..

/-- What is behind a template is substituted by itself. -/
theorem substituteChars_template (h : Template parts) (hrest : rest = [] ∨ opening <+: rest) :
    substituteChars fl ctx (parts.flatMap Part.source ++ rest) =
      parts.flatMap (Part.out fl ctx) ++ substituteChars fl ctx rest := by
  rw [substituteChars, pieces_template h hrest, List.flatMap_append, List.flatMap_assoc]
  simp only [Part.flatMap_render]
  rfl

/-- **The substitution of a template is that of its parts.** -/
theorem substitute_template (h : Template parts) :
    substitute fl ctx (String.ofList (parts.flatMap Part.source)) =
      String.ofList (parts.flatMap (Part.out fl ctx)) := by
  have hall := substituteChars_template fl ctx h (.inl rfl : ([] : List Char) = [] ∨ _)
  rw [List.append_nil] at hall
  rw [substitute, String.toList_ofList, hall]
  exact congrArg String.ofList (List.append_nil _)

end

/-- Two expressions between literals, the second of them without a value. -/
def greeting : List Part :=
  [.lit "on ".toList, .expr " 'a$' ".toList, .lit "/".toList, .expr " ! ".toList, .lit ".".toList]

theorem greeting_substituted : substitute Floats.absent [] (String.ofList
    (greeting.flatMap Part.source)) = "on a$/${{ ! }}." := by
  have htemplate : Template greeting := by
    apply template_of_plain
    · intro body hbody
      have hb : body = " 'a$' ".toList ∨ body = " ! ".toList := by simpa [greeting] using hbody
      rcases hb with rfl | rfl <;> exact closable_of_plain (by decide) (by decide)
    · intro text htext
      have ht : text = "on ".toList ∨ text = "/".toList ∨ text = ".".toList := by
        simpa [greeting] using htext
      rcases ht with rfl | rfl | rfl <;> decide
  rw [substitute_template Floats.absent [] htemplate]
  decide +kernel

end HeyoCi.Expr
