import HeyoCi.Expr.Numbers
import HeyoCi.Lib.Placeholders

/-!
# Placeholders of `format`

The source replaces the placeholders of one argument after the other, each in what the ones before it
have left.

* `placeholder`, `Slot`, `holes`: the placeholders of a format string; `holeAt_iff`,
  `holesFrom_source`;
* `fill`, `filled`: all of them replaced at once;
* `marked`, `Undisturbed`: the text in which the placeholders of an argument are replaced, and when they
  are all that is replaced;
* `fillEach_succ`, **`format_iff`**: every step of `format` replaces the placeholders of one argument
  and nothing else, exactly if no argument is disturbed.
-/

namespace HeyoCi.Expr

open Words

/-! ## Format strings -/

/-- `{i}`. -/
def placeholder (i : Nat) : List Char := '{' :: ((toString i).toList ++ ['}'])

/-- A character of a format string, or a placeholder in it. -/
inductive Slot where
  | char (c : Char)
  | hole (i : Nat)
  deriving Repr, DecidableEq

/-- The placeholder that a text begins with. -/
def holeAt : List Char → Option Nat
  | '{' :: cs =>
    let i := numeral (cs.takeWhile Char.isDigit)
    if (placeholder i).isPrefixOf ('{' :: cs) then some i else none
  | _ => none

/-- The slots of a text whose first `skip` characters belong to a placeholder that was read. -/
def holesFrom : Nat → List Char → List Slot
  | _, [] => []
  | skip + 1, _ :: cs => holesFrom skip cs
  | 0, c :: cs => match holeAt (c :: cs) with
    | some i => .hole i :: holesFrom ((placeholder i).length - 1) cs
    | none => .char c :: holesFrom 0 cs

def holes (f : List Char) : List Slot := holesFrom 0 f

theorem not_mem_placeholder (i : Nat) : '{' ∉ (toString i).toList ++ ['}'] := by
  intro hmem
  rcases List.mem_append.mp hmem with hdigit | hclose
  · exact absurd ((digits_toString i).2 _ hdigit) (by decide)
  · exact absurd hclose (by decide)

/-- The placeholder that is read is the one that is there. -/
theorem holeAt_iff {cs : List Char} {i : Nat} : holeAt cs = some i ↔ placeholder i <+: cs := by
  constructor
  · intro h
    unfold holeAt at h
    split at h
    · simp only [Option.ite_none_right_eq_some, Option.some.injEq] at h
      obtain ⟨hpre, rfl⟩ := h
      exact List.isPrefixOf_iff_prefix.mp hpre
    · cases h
  · rintro ⟨rest, rfl⟩
    have hrun : ((toString i).toList ++ ['}'] ++ rest).takeWhile Char.isDigit = (toString i).toList := by
      rw [List.append_assoc, List.takeWhile_append_of_pos (digits_toString i).2]
      exact List.append_nil _
    have hpre : (placeholder i).isPrefixOf (placeholder i ++ rest) = true :=
      List.isPrefixOf_iff_prefix.mpr (List.prefix_append _ _)
    have hstep : holeAt (placeholder i ++ rest) =
        let n := numeral (((toString i).toList ++ ['}'] ++ rest).takeWhile Char.isDigit)
        if (placeholder n).isPrefixOf (placeholder i ++ rest) then some n else none := rfl
    rw [hstep, hrun, numeral_toString]
    exact if_pos hpre

/-! ## All placeholders at once -/

/-- A slot with the texts of some arguments. A placeholder of none of them stays. -/
def Slot.text (texts : List (List Char)) : Slot → List Char
  | char c => [c]
  | hole i => texts[i]?.getD (placeholder i)

def fill (texts : List (List Char)) (f : List Char) : List Char := (holes f).flatMap (Slot.text texts)

theorem holesFrom_source (skip : Nat) (f : List Char) :
    (holesFrom skip f).flatMap (Slot.text []) = f.drop skip := by
  fun_induction holesFrom skip f with
  | case1 skip => rw [List.drop_nil]; rfl
  | case2 skip c cs ih => rw [ih, List.drop_succ_cons]
  | case3 c cs i hhole ih =>
    obtain ⟨rest, hrest⟩ := holeAt_iff.mp hhole
    rw [List.flatMap_cons, ih, List.drop_zero, ← hrest]
    have hcs : cs = (toString i).toList ++ ['}'] ++ rest := (List.cons.inj hrest).2.symm
    rw [hcs]
    simp [Slot.text, placeholder]
  | case4 c cs hhole ih =>
    rw [List.flatMap_cons, ih]
    rfl

/-- **The slots of a format string make up the string.** -/
theorem fill_nil (f : List Char) : fill [] f = f := holesFrom_source 0 f

/-! ## One argument after the other -/

/-- The placeholders of the texts, one text after the other. -/
def fillEach (texts : List (List Char)) (f : List Char) : List Char :=
  texts.zipIdx.foldl (fun out (t, i) => replaceAll (placeholder i) t out) f

/-- A slot before the placeholders of argument `k` are replaced, with marks in place of these. -/
def Slot.mark (texts : List (List Char)) (k : Nat) : Slot → List (Option Char)
  | char c => [some c]
  | hole i => if i = k then [none] else ((hole i).text (texts.take k)).map some

/-- A format string with the arguments before `k` filled in, and marks in place of the placeholders of
argument `k`. -/
def marked (texts : List (List Char)) (f : List Char) (k : Nat) : List (Option Char) :=
  (holes f).flatMap (Slot.mark texts k)

variable {texts : List (List Char)} {f : List Char} {k : Nat}

theorem put_flatMap {β : Type} (w : List Char) (slots : List β) (g : β → List (Option Char)) :
    put w (slots.flatMap g) = slots.flatMap fun slot => put w (g slot) := List.flatMap_assoc

theorem put_marked : put (placeholder k) (marked texts f k) = fill (texts.take k) f := by
  rw [marked, put_flatMap, fill]
  refine List.flatMap_congr fun slot _ => ?_
  cases slot with
  | char c => rfl
  | hole i =>
    rw [Slot.mark]
    split_ifs with hi
    · subst hi
      have hnone : (texts.take i)[i]? = none :=
        List.getElem?_eq_none (by rw [List.length_take]; omega)
      rw [Slot.text, hnone]
      exact List.append_nil _
    · exact put_map_some _ _

theorem put_marked_text {t : List Char} (ht : texts[k]? = some t) :
    put t (marked texts f k) = fill (texts.take (k + 1)) f := by
  rw [marked, put_flatMap, fill]
  refine List.flatMap_congr fun slot _ => ?_
  cases slot with
  | char c => rfl
  | hole i =>
    rw [Slot.mark]
    split_ifs with hi
    · subst hi
      rw [Slot.text, List.getElem?_take_of_lt (Nat.lt_succ_self i), ht]
      exact List.append_nil _
    · rw [put_map_some, Slot.text, Slot.text]
      congr 1
      rw [List.getElem?_take, List.getElem?_take]
      split_ifs <;> first | rfl | omega

/-- One more text is one more replacement. -/
theorem fillEach_succ {t : List Char} (ht : texts[k]? = some t) : fillEach (texts.take (k + 1)) f =
    replaceAll (placeholder k) t (fillEach (texts.take k) f) := by
  have hlt : k < texts.length := (List.getElem?_eq_some_iff.mp ht).1
  have hlen : (texts.take k).length = k := by
    rw [List.length_take]
    omega
  rw [fillEach, List.take_add_one, ht, Option.toList_some, List.zipIdx_append, List.foldl_append,
    hlen, Nat.zero_add]
  rfl

/-- The placeholders of argument `k` are nowhere but in the format string, or they stay as they are. -/
def Undisturbed (texts : List (List Char)) (f : List Char) (k : Nat) : Prop :=
  ∀ t, texts[k]? = some t → t = placeholder k ∨ ¬ (placeholder k).map some <:+: marked texts f k

/-- A step from where the placeholders before it are replaced, and nothing else. -/
theorem step_iff {t : List Char} (ht : texts[k]? = some t)
    (h : fillEach (texts.take k) f = fill (texts.take k) f) :
    fillEach (texts.take (k + 1)) f = fill (texts.take (k + 1)) f ↔ Undisturbed texts f k := by
  rw [fillEach_succ ht, h, ← put_marked, ← put_marked_text ht, placeholder,
    replaceAll_put_iff (not_mem_placeholder k), Undisturbed, ht]
  simp [placeholder]

/-- **Every step replaces the placeholders of its argument and nothing else, exactly if no argument is
disturbed.** -/
theorem fillEach_iff : (∀ k, fillEach (texts.take k) f = fill (texts.take k) f) ↔
    ∀ k, Undisturbed texts f k := by
  constructor
  · intro h k t ht
    exact (step_iff ht (h k)).mp (h (k + 1)) t ht
  · intro h k
    induction k with
    | zero => rw [List.take_zero, fill_nil]; rfl
    | succ k ih =>
      cases ht : texts[k]? with
      | some t => exact (step_iff ht ih).mpr (h k)
      | none =>
        have hle : texts.length ≤ k := List.getElem?_eq_none_iff.mp ht
        rw [List.take_of_length_le hle] at ih
        rwa [List.take_of_length_le (by omega)]

/-! ## The function -/

section

variable {F : Type} (fl : Floats F)

/-- How arguments are displayed. -/
def displays (args : List Json) : List (List Char) := args.map fun a => (toDisplay fl a).toList

/-- A format string with the placeholders of all arguments replaced at once. -/
def filled (f : String) (args : List Json) : String :=
  String.ofList (fill (displays fl args) f.toList)

theorem format_eq (f : String) (args : List Json) :
    format fl f args = String.ofList (fillEach (displays fl args) f.toList) := by
  rw [format, fillEach, displays, List.zipIdx_map, List.foldl_map]
  rfl

theorem displays_take (args : List Json) (k : Nat) :
    displays fl (args.take k) = (displays fl args).take k := List.map_take

/-- **`format` fills in the arguments, and no text of them is taken for a placeholder on the way,
exactly if no argument is disturbed.** -/
theorem format_iff (ctx : Json.Obj) (f : String) (args : List Json) :
    ((∀ k, call fl ctx "format" (.str f :: args.take k) = .ok (.str (filled fl f (args.take k)))) ↔
      ∀ k, Undisturbed (displays fl args) f.toList k) ∧
    ((∀ k, Undisturbed (displays fl args) f.toList k) →
      call fl ctx "format" (.str f :: args) = .ok (.str (filled fl f args))) := by
  have hcall : ∀ args, call fl ctx "format" (.str f :: args) = .ok (.str (format fl f args)) :=
    fun _ => rfl
  have hiff : (∀ k, call fl ctx "format" (.str f :: args.take k) =
      .ok (.str (filled fl f (args.take k)))) ↔ ∀ k, Undisturbed (displays fl args) f.toList k := by
    simp only [hcall, format_eq, filled, displays_take, Except.ok.injEq, Json.str.injEq,
      String.ofList_inj]
    exact fillEach_iff
  refine ⟨hiff, fun h => ?_⟩
  have hall := hiff.mpr h args.length
  rwa [List.take_length] at hall

end

theorem argument_refilled : call Floats.absent [] "format" [.str "{0}{1}", .str "{1}", .str "x"] ≠
    .ok (.str (filled Floats.absent "{0}{1}" [.str "{1}", .str "x"])) := by decide

end HeyoCi.Expr
