import Mathlib.Algebra.Group.Nat.Defs
import HeyoCi.Dispatch.Bus
import HeyoCi.Expr.Values
import HeyoCi.Lib.Fresh
import HeyoCi.Workflow.File
import Std.Data.String.ToNat

/-!
# The keys of the cells

* `sanitize`, `displayValue`: a value of the matrix in the alphabet of subjects;
* `candidateKey`, `uniqueKey`: the readable key of a cell, and the one it gets;
* **`uniqueKey_notMem`**: the loop of `unique_key` ends, in a key that is not taken;
* `tokenText_uniqueKey`: its alphabet.
-/

namespace HeyoCi

/-! ## The key of a cell -/

/-- A text without the dashes at its ends. -/
def trimDashes (cs : List Char) : List Char :=
  ((cs.dropWhile fun c => c = '-').reverse.dropWhile fun c => c = '-').reverse

/-- `sanitize`. -/
def sanitize (s : String) : String :=
  String.ofList (trimDashes (s.toList.map fun c => if isTokenChar c then c else '-'))

section

variable {F : Type} (fl : Expr.Floats F)

/-- `display_value`. -/
def displayValue : Json → String
  | .str s => s
  | other => fl.toText other

/-- The base with what the values of the matrix come to, if they come to anything. -/
def candidateKey (base : String) (mtx : Json.Obj) : String :=
  let suffix := (mtx.map fun kv => sanitize (displayValue fl kv.2)).filter fun s => !s.isEmpty
  if suffix.isEmpty then base else base ++ "-" ++ "-".intercalate suffix

/-- The base with a number. -/
def numberedKey (base : String) (n : Nat) : String := base ++ "-" ++ n.repr

/-- The key a cell asks for: the candidate, or its number if that is long or taken. -/
def wantedKey (base : String) (mtx : Json.Obj) (index : Nat) (used : List String) : String :=
  let candidate := candidateKey fl base mtx
  if candidate.utf8ByteSize > 64 || used.contains candidate then numberedKey base index
  else candidate

/-- `unique_key`: that key, or the first of the numbers behind the index that is not taken. -/
def uniqueKey (base : String) (mtx : Json.Obj) (index : Nat) (used : List String) : String :=
  Fresh.first (fun turn => if turn = 0 then wantedKey fl base mtx index used
    else numberedKey base (index + turn)) used

/-! ## Keys are not taken -/

variable {base : String}

theorem numberedKey_inj {m n : Nat} (h : numberedKey base m = numberedKey base n) : m = n := by
  apply Nat.repr_injective
  apply String.toList_inj.mp
  have hlist := congrArg String.toList h
  simpa only [numberedKey, String.toList_append, List.append_cancel_left_eq] using hlist

/-- **The loop ends in a key that is not taken.** -/
theorem uniqueKey_notMem (base : String) (mtx : Json.Obj) (index : Nat) (used : List String) :
    uniqueKey fl base mtx index used ∉ used := by
  apply Fresh.first_notMem
  intro i j h
  simp only [Nat.add_eq_zero_iff, Nat.one_ne_zero, and_false, if_false] at h
  have hij := numberedKey_inj h
  omega

/-- What a key can be. -/
theorem uniqueKey_eq (base : String) (mtx : Json.Obj) (index : Nat) (used : List String) :
    (uniqueKey fl base mtx index used = candidateKey fl base mtx ∧
        (candidateKey fl base mtx).utf8ByteSize ≤ 64) ∨
      ∃ n ≤ index + used.length + 1, uniqueKey fl base mtx index used = numberedKey base n := by
  obtain ⟨i, hi, heq⟩ := Fresh.first_eq (fun turn =>
    if turn = 0 then wantedKey fl base mtx index used else numberedKey base (index + turn)) used
  rw [uniqueKey, heq]
  split_ifs
  · unfold wantedKey
    simp only
    split_ifs with hlong
    · exact Or.inr ⟨index, by omega, rfl⟩
    · left
      simp only [Bool.or_eq_true, decide_eq_true_eq, not_or, Nat.not_lt] at hlong
      exact ⟨rfl, hlong.1⟩
  · exact Or.inr ⟨index + i, by omega, rfl⟩

/-! ## Their alphabet -/

theorem mem_trimDashes {cs : List Char} {c : Char} (h : c ∈ trimDashes cs) : c ∈ cs := by
  have h₁ := List.mem_reverse.mp h
  have h₂ := List.mem_reverse.mp ((List.dropWhile_suffix _).subset h₁)
  exact (List.dropWhile_suffix _).subset h₂

/-- A text in the alphabet of subjects. -/
def TokenText (s : String) : Prop := ∀ c ∈ s.toList, isTokenChar c = true

theorem TokenText.append {s t : String} (hs : TokenText s) (ht : TokenText t) :
    TokenText (s ++ t) := by
  intro c hc
  rw [String.toList_append, List.mem_append] at hc
  rcases hc with hc | hc
  · exact hs c hc
  · exact ht c hc

theorem tokenText_dash : TokenText "-" := by
  intro c hc
  obtain rfl : c = '-' := by simpa using hc
  rfl

theorem tokenText_repr (n : Nat) : TokenText n.repr := by
  intro c hc
  rw [Nat.toList_repr] at hc
  have hdigit := Nat.isDigit_of_mem_toDigits (by omega) (by omega) hc
  simp [isTokenChar, Char.isAlphanum, hdigit]

theorem tokenText_sanitize (s : String) : TokenText (sanitize s) := by
  intro c hc
  rw [sanitize, String.toList_ofList] at hc
  obtain ⟨d, -, rfl⟩ := List.mem_map.mp (mem_trimDashes hc)
  split_ifs with hd
  · exact hd
  · rfl

theorem tokenText_intercalate {parts : List String} (hparts : ∀ p ∈ parts, TokenText p) :
    TokenText ("-".intercalate parts) := by
  induction parts with
  | nil => exact fun c hc => absurd hc List.not_mem_nil
  | cons p parts ih =>
    have hp : TokenText p := hparts p List.mem_cons_self
    have hrest := ih fun q hq => hparts q (List.mem_cons_of_mem _ hq)
    cases parts with
    | nil => rwa [String.intercalate_singleton]
    | cons q parts =>
      rw [String.intercalate_cons_cons]
      exact (hp.append tokenText_dash).append hrest

theorem tokenText_candidateKey (hbase : TokenText base) (mtx : Json.Obj) :
    TokenText (candidateKey fl base mtx) := by
  unfold candidateKey
  simp only
  split_ifs
  · exact hbase
  · refine (hbase.append tokenText_dash).append (tokenText_intercalate fun p hp => ?_)
    obtain ⟨kv, -, rfl⟩ := List.mem_map.mp (List.mem_filter.mp hp).1
    exact tokenText_sanitize _

theorem tokenText_numberedKey (hbase : TokenText base) (n : Nat) :
    TokenText (numberedKey base n) := (hbase.append tokenText_dash).append (tokenText_repr n)

theorem tokenText_uniqueKey (hbase : TokenText base) (mtx : Json.Obj) (index : Nat)
    (used : List String) : TokenText (uniqueKey fl base mtx index used) := by
  rcases uniqueKey_eq fl base mtx index used with ⟨heq, -⟩ | ⟨n, -, heq⟩
  · rw [heq]
    exact tokenText_candidateKey fl hbase mtx
  · rw [heq]
    exact tokenText_numberedKey hbase n

/-! ## Their length -/

theorem TokenText.utf8ByteSize {s : String} (h : TokenText s) : s.utf8ByteSize = s.length := by
  have hascii : ∀ c ∈ s.toList, c.val ≤ 127 := by
    intro c hc
    have htoken := h c hc
    simp only [isTokenChar, Bool.or_eq_true, decide_eq_true_eq] at htoken
    rcases htoken with (halnum | rfl) | rfl
    · exact Text.ascii_of_isAlphanum halnum
    · decide
    · decide
  have hbytes := Text.utf8ByteSize_ofList hascii
  rwa [String.ofList_toList, String.length_toList] at hbytes

theorem length_numberedKey (base : String) {n : Nat} (hn : n < 2 ^ 64) :
    (numberedKey base n).length ≤ base.length + 21 := by
  have hdigits : n.repr.length ≤ 20 := (Nat.length_repr_le_iff (by omega)).mpr (by omega)
  have hdash : "-".length = 1 := rfl
  rw [numberedKey, String.length_append, String.length_append, hdash]
  omega

/-- A job id is a text in the alphabet of subjects, of at most 64 bytes. -/
theorem tokenText_of_isJobId (h : isJobId base = true) :
    TokenText base ∧ base ≠ "" ∧ base.length ≤ 64 := by
  simp only [isJobId, Bool.and_eq_true, Bool.not_eq_true', decide_eq_true_eq, List.all_eq_true] at h
  obtain ⟨⟨hne, hlen⟩, hall⟩ := h
  have htoken : TokenText base := fun c hc => by simpa [isTokenChar] using hall c hc
  refine ⟨htoken, ?_, by rwa [← htoken.utf8ByteSize]⟩
  rintro rfl
  cases hne

theorem length_le_candidateKey (base : String) (mtx : Json.Obj) :
    base.length ≤ (candidateKey fl base mtx).length := by
  unfold candidateKey
  simp only
  split_ifs
  · exact Nat.le_refl _
  · rw [String.length_append, String.length_append]
    omega

theorem isSubjectToken_of_tokenText {s : String} (h : TokenText s) (hlen : 0 < s.length) :
    isSubjectToken s = true := by
  simp only [isSubjectToken, Bool.and_eq_true, Bool.not_eq_true', List.all_eq_true]
  refine ⟨?_, h⟩
  rw [Bool.eq_false_iff, ne_eq, String.isEmpty_iff]
  rintro rfl
  exact absurd hlen (by decide)

/-- **A key fits into a subject and is short**, if the cells can be counted in 64 bits. -/
theorem uniqueKey_ok (h : isJobId base = true) (mtx : Json.Obj) {index : Nat} {used : List String}
    (hcount : index + used.length + 1 < 2 ^ 64) :
    isSubjectToken (uniqueKey fl base mtx index used) = true ∧
      (uniqueKey fl base mtx index used).length ≤ 85 := by
  obtain ⟨htoken, hne, hlen⟩ := tokenText_of_isJobId h
  have hpos : 0 < base.length := by
    rw [Nat.pos_iff_ne_zero, ne_eq, String.length_eq_zero_iff]
    exact hne
  rcases uniqueKey_eq fl base mtx index used with ⟨heq, hshort⟩ | ⟨n, hn, heq⟩
  · have hcandidate := tokenText_candidateKey fl htoken mtx
    have hle := length_le_candidateKey fl base mtx
    rw [hcandidate.utf8ByteSize] at hshort
    rw [heq]
    exact ⟨isSubjectToken_of_tokenText hcandidate (by omega), by omega⟩
  · have hnumbered := length_numberedKey base (n := n) (by omega)
    have hle : base.length ≤ (numberedKey base n).length := by
      rw [numberedKey, String.length_append, String.length_append]
      omega
    rw [heq]
    exact ⟨isSubjectToken_of_tokenText (tokenText_numberedKey htoken n) (by omega), by omega⟩

end

end HeyoCi
