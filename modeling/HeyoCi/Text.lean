import Mathlib.Tactic.SplitIfs

/-!
# Text

The string functions of the source that this development needs, on the characters of a string.

* `trim`: without the white space on both sides;
* `eqIgnoreAsciiCase`: equal but for the case of ASCII letters;
* `stripPrefix`, `debugStr`, `join`, `truncate`;
* `lines`, `splitOnce`, `splitLast`: a text cut at its line ends, at the first and at the last
  occurrence of a separator; `splitOnce_eq_some`, `stripPrefix_eq_some`.
-/

namespace HeyoCi.Text

/-- Unicode `White_Space`. -/
def isWhitespace (c : Char) : Bool :=
  let n := c.toNat
  (9 ≤ n && n ≤ 13) || n = 0x20 || n = 0x85 || n = 0xA0 || n = 0x1680 ||
    (0x2000 ≤ n && n ≤ 0x200A) || n = 0x2028 || n = 0x2029 || n = 0x202F || n = 0x205F || n = 0x3000

def trimEnd (cs : List Char) : List Char := (cs.reverse.dropWhile isWhitespace).reverse

/-- `str::trim`. -/
def trim (s : String) : String := String.ofList (trimEnd (s.toList.dropWhile isWhitespace))

/-- `str::eq_ignore_ascii_case`. -/
def eqIgnoreAsciiCase (a b : String) : Bool :=
  a.toList.map Char.toLower = b.toList.map Char.toLower

/-- `str::strip_prefix`. -/
def stripPrefix (pre s : String) : Option String :=
  if pre.toList.isPrefixOf s.toList then some (String.ofList (s.toList.drop pre.length)) else none

/-- One character as `{:?}` prints it inside a string; one that it prints by its number is left as it is. -/
def escapeDebug (c : Char) : List Char :=
  if c = '"' then ['\\', '"']
  else if c = '\\' then ['\\', '\\']
  else if c = '\n' then ['\\', 'n']
  else if c = '\r' then ['\\', 'r']
  else if c = '\t' then ['\\', 't']
  else if c = '\x00' then ['\\', '0']
  else [c]

/-- A string as `{:?}` prints it, if all of it is printable and stands for itself. -/
def debugStr (s : String) : String :=
  String.ofList (['"'] ++ s.toList.flatMap escapeDebug ++ ['"'])

/-- The characters that `{:?}` prints with a backslash, and what it puts behind it. -/
def escapes : List (Char × Char) :=
  [('"', '"'), ('\\', '\\'), ('\n', 'n'), ('\r', 'r'), ('\t', 't'), ('\x00', '0')]

theorem escapeDebug_cases (c : Char) :
    (c ≠ '\\' ∧ escapeDebug c = [c]) ∨ ∃ e, (c, e) ∈ escapes ∧ escapeDebug c = ['\\', e] := by
  unfold escapeDebug
  split_ifs with h₁ h₂ h₃ h₄ h₅ h₆
  case neg => exact Or.inl ⟨h₂, rfl⟩
  all_goals
    subst c
    exact Or.inr ⟨_, by decide, rfl⟩

theorem escapeDebug_inj {c d : Char} {cs ds : List Char}
    (h : escapeDebug c ++ cs = escapeDebug d ++ ds) : c = d ∧ cs = ds := by
  have hesc : ∀ p ∈ escapes, ∀ q ∈ escapes, p.2 = q.2 → p.1 = q.1 := by decide
  rcases escapeDebug_cases c with ⟨hc, he⟩ | ⟨e, hc, he⟩ <;>
    rcases escapeDebug_cases d with ⟨hd, he'⟩ | ⟨e', hd, he'⟩ <;>
    rw [he, he'] at h <;> injection h with h h'
  · exact ⟨h, h'⟩
  · exact absurd h hc
  · exact absurd h.symm hd
  · injection h' with h' h''
    exact ⟨hesc _ hc _ hd h', h''⟩

theorem escapeDebug_ne_nil (c : Char) : escapeDebug c ≠ [] := by
  rcases escapeDebug_cases c with ⟨-, he⟩ | ⟨e, -, he⟩ <;> rw [he] <;> exact List.cons_ne_nil _ _

/-- A text is known by the codes of its characters, where no code goes on as another. -/
theorem flatMap_inj {f : Char → List Char} (hne : ∀ c, f c ≠ [])
    (hf : ∀ {c d cs ds}, f c ++ cs = f d ++ ds → c = d ∧ cs = ds) {cs ds : List Char}
    (h : cs.flatMap f = ds.flatMap f) : cs = ds := by
  induction cs generalizing ds with
  | nil =>
    cases ds with
    | nil => rfl
    | cons d ds => simp [hne] at h
  | cons c cs ih =>
    cases ds with
    | nil => simp [hne] at h
    | cons d ds =>
      simp only [List.flatMap_cons] at h
      obtain ⟨rfl, hrest⟩ := hf h
      rw [ih hrest]

/-- Two strings that are printed alike are one string. -/
theorem debugStr_inj {s t : String} (h : debugStr s = debugStr t) : s = t := by
  have hl := congrArg String.toList h
  simp only [debugStr, String.toList_ofList, List.append_cancel_left_eq,
    List.append_cancel_right_eq] at hl
  exact String.toList_inj.mp (flatMap_inj escapeDebug_ne_nil escapeDebug_inj hl)

/-! ## Bytes -/

theorem ascii_of_isAlphanum {c : Char} (h : c.isAlphanum = true) : c.val ≤ 127 := by
  delta Char.isAlphanum Char.isAlpha Char.isUpper Char.isLower Char.isDigit at h
  simp only [Bool.or_eq_true, Bool.and_eq_true, decide_eq_true_eq] at h
  rcases h with (⟨-, h⟩ | ⟨-, h⟩) | ⟨-, h⟩ <;> exact UInt32.le_trans h (by decide)

/-- A text of ASCII characters has a byte for each. -/
theorem utf8ByteSize_ofList {cs : List Char} (h : ∀ c ∈ cs, c.val ≤ 127) :
    (String.ofList cs).utf8ByteSize = cs.length := by
  induction cs with
  | nil => rfl
  | cons c cs ih =>
    have hc : c.utf8Size = 1 := Char.utf8Size_eq_one_iff.mpr (h c List.mem_cons_self)
    rw [String.ofList_cons, String.utf8ByteSize_append, String.utf8ByteSize_singleton, hc,
      ih fun d hd => h d (List.mem_cons_of_mem _ hd), List.length_cons, Nat.add_comm]

/-- `join(", ")`. -/
def join (items : List String) : String := ", ".intercalate items

/-- At most `max` characters, the last one an ellipsis where some are left out. -/
def truncate (s : String) (max : Nat) : String :=
  if s.length ≤ max then s else String.ofList (s.toList.take (max - 1) ++ ['…'])

/-- A line without the carriage return before its line feed. -/
def stripCr (line : List Char) : List Char :=
  if line.getLast? = some '\r' then line.dropLast else line

/-- The lines of a text whose current line starts with `line`. -/
def linesFrom (line : List Char) : List Char → List (List Char)
  | [] => if line.isEmpty then [] else [line]
  | c :: cs => if c = '\n' then stripCr line :: linesFrom [] cs else linesFrom (line ++ [c]) cs

/-- `str::lines`. -/
def lines (s : String) : List String := (linesFrom [] s.toList).map String.ofList

/-- `str::split_once` at a character. -/
def splitOnce (c : Char) : List Char → Option (List Char × List Char)
  | [] => none
  | x :: xs => if x = c then some ([], xs) else (splitOnce c xs).map fun (k, v) => (x :: k, v)

/-- What is before and after the last occurrence of a pattern that is not empty. -/
def splitLast (pat : List Char) : List Char → Option (List Char × List Char)
  | [] => none
  | x :: xs => match splitLast pat xs with
    | some (before, after) => some (x :: before, after)
    | none => if pat.isPrefixOf (x :: xs) then some ([], (x :: xs).drop pat.length) else none

/-- The two parts and the pattern between them are the text. -/
theorem splitLast_eq {pat cs before after : List Char} (h : splitLast pat cs = some (before, after)) :
    cs = before ++ (pat ++ after) := by
  induction cs generalizing before after with
  | nil => cases h
  | cons c cs ih =>
    rw [splitLast] at h
    split at h
    · rename_i before' after' hs
      cases h
      rw [List.cons_append, ← ih hs]
    · split_ifs at h with hpre
      cases h
      exact (List.prefix_iff_eq_append.mp (List.isPrefixOf_iff_prefix.mp hpre)).symm

theorem splitOnce_eq_some {c : Char} {cs k v : List Char} :
    splitOnce c cs = some (k, v) ↔ cs = k ++ c :: v ∧ c ∉ k := by
  induction cs generalizing k with
  | nil => simp [splitOnce]
  | cons x xs ih =>
    rw [splitOnce]
    split_ifs with hx
    · subst hx
      constructor
      · intro h
        cases h
        exact ⟨rfl, List.not_mem_nil⟩
      · rintro ⟨heq, hk⟩
        cases k with
        | nil =>
          cases heq
          rfl
        | cons y k =>
          cases heq
          exact absurd List.mem_cons_self hk
    · rw [Option.map_eq_some_iff]
      constructor
      · rintro ⟨⟨k', v'⟩, h, heq⟩
        cases heq
        obtain ⟨rfl, hk⟩ := ih.mp h
        refine ⟨rfl, fun hmem => ?_⟩
        rcases List.mem_cons.mp hmem with rfl | hmem
        · exact hx rfl
        · exact hk hmem
      · rintro ⟨heq, hk⟩
        cases k with
        | nil =>
          cases heq
          exact absurd rfl hx
        | cons y k =>
          cases heq
          exact ⟨(k, v), ih.mpr ⟨rfl, fun hmem => hk (List.mem_cons_of_mem _ hmem)⟩, rfl⟩

theorem splitOnce_eq_none {c : Char} {cs : List Char} : splitOnce c cs = none ↔ c ∉ cs := by
  constructor
  · intro h hmem
    obtain ⟨k, v, rfl, hk⟩ := List.eq_append_cons_of_mem hmem
    rw [splitOnce_eq_some.mpr ⟨rfl, hk⟩] at h
    cases h
  · intro hnot
    cases h : splitOnce c cs with
    | none => rfl
    | some p =>
      obtain ⟨k, v⟩ := p
      rw [(splitOnce_eq_some.mp h).1] at hnot
      exact absurd (List.mem_append_right k List.mem_cons_self) hnot

theorem stripPrefix_eq_some {pre s rest : String} :
    stripPrefix pre s = some rest ↔ s.toList = pre.toList ++ rest.toList := by
  unfold stripPrefix
  split_ifs with hpre
  · obtain ⟨tail, htail⟩ := List.isPrefixOf_iff_prefix.mp hpre
    rw [← htail, ← String.length_toList, List.drop_left, Option.some_inj, List.append_cancel_left_eq]
    constructor
    · rintro rfl
      exact String.toList_ofList.symm
    · rintro rfl
      exact String.ofList_toList
  · refine iff_of_false nofun fun heq => hpre ?_
    rw [heq]
    exact List.isPrefixOf_iff_prefix.mpr (List.prefix_append _ _)

end HeyoCi.Text
