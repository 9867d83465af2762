import Mathlib.Data.List.Basic
import Mathlib.Tactic.SplitIfs

/-!
# JSON texts

A reader of JSON texts, and what it makes of a text that somebody wrote without a library, out of fixed
parts and of strings with escapes in them.

* `Value`: what is read; the members of an object stay as they are written, also two of one name;
* `escaped`, `body`: the letters of a string, up to its end;
* `value`, `items`, `members`, `read`: the reader, with a limit on how deep a text is;
* `Spells`, `body_flatMap`: strings that are written letter by letter;
* `WrittenAs`: a text that is read as it is meant, or refused, whatever is behind it;
* **`written_obj`**: so is an object out of such texts.
-/

namespace JsonText

/-- A value as it is written. -/
inductive Value where
  | null
  | bool (b : Bool)
  | num (text : String)
  | str (s : String)
  | arr (items : List Value)
  | obj (members : List (String × Value))
  deriving Repr, Inhabited

/-! ## The reader -/

def isSpace (c : Char) : Bool := c = ' ' || c = '\n' || c = '\t' || c = '\r'

/-- A letter that no string may have as it is. -/
def isControl (c : Char) : Bool := c.toNat < 0x20

def hexDigit (c : Char) : Option ℕ :=
  if '0' ≤ c ∧ c ≤ '9' then some (c.toNat - 48)
  else if 'a' ≤ c ∧ c ≤ 'f' then some (c.toNat - 87)
  else if 'A' ≤ c ∧ c ≤ 'F' then some (c.toNat - 55)
  else none

/-- The four digits behind `\u`. -/
def codeUnit : List Char → Option (ℕ × List Char)
  | a :: b :: c :: d :: rest => do
    let a ← hexDigit a
    let b ← hexDigit b
    let c ← hexDigit c
    let d ← hexDigit d
    return (4096 * a + 256 * b + 16 * c + d, rest)
  | _ => none

/-- What stands behind a backslash: a letter beyond the first 65536 is two of them. -/
def escaped : List Char → Option (Char × List Char)
  | '"' :: rest => some ('"', rest)
  | '\\' :: rest => some ('\\', rest)
  | '/' :: rest => some ('/', rest)
  | 'b' :: rest => some ('\x08', rest)
  | 'f' :: rest => some ('\x0c', rest)
  | 'n' :: rest => some ('\n', rest)
  | 'r' :: rest => some ('\r', rest)
  | 't' :: rest => some ('\t', rest)
  | 'u' :: rest => do
    let (n, rest) ← codeUnit rest
    if 0xD800 ≤ n ∧ n < 0xDC00 then
      match rest with
      | '\\' :: 'u' :: rest => do
        let (m, rest) ← codeUnit rest
        if 0xDC00 ≤ m ∧ m < 0xE000 then
          some (Char.ofNat (0x10000 + 1024 * (n - 0xD800) + (m - 0xDC00)), rest)
        else none
      | _ => none
    else if 0xDC00 ≤ n ∧ n < 0xE000 then none
    else some (Char.ofNat n, rest)
  | _ => none

/-- The letters of a string up to its end, and what is behind it. -/
def body : ℕ → List Char → Option (List Char × List Char)
  | 0, _ => none
  | n + 1, cs => match cs with
    | [] => none
    | '"' :: rest => some ([], rest)
    | '\\' :: rest => do
      let (c, rest) ← escaped rest
      (body n rest).map fun (s, rest) => (c :: s, rest)
    | c :: rest => if isControl c then none
      else (body n rest).map fun (s, rest) => (c :: s, rest)

def digits (cs : List Char) : Option (List Char × List Char) :=
  let ds := cs.takeWhile Char.isDigit
  if ds.isEmpty then none else some (ds, cs.dropWhile Char.isDigit)

def exponent : List Char → Option (List Char × List Char)
  | [] => some ([], [])
  | c :: rest => if c = 'e' ∨ c = 'E' then match rest with
      | '+' :: rest => (digits rest).map fun (ds, rest) => (c :: '+' :: ds, rest)
      | '-' :: rest => (digits rest).map fun (ds, rest) => (c :: '-' :: ds, rest)
      | rest => (digits rest).map fun (ds, rest) => (c :: ds, rest)
    else some ([], c :: rest)

/-- A number, by its text. -/
def number (cs : List Char) : Option (Value × List Char) := do
  let (sign, rest) := match cs with
    | '-' :: rest => (['-'], rest)
    | _ => ([], cs)
  let (whole, rest) ← match rest with
    | '0' :: rest => some (['0'], rest)
    | _ => digits rest
  let (fraction, rest) ← match rest with
    | '.' :: rest => (digits rest).map fun (ds, rest) => ('.' :: ds, rest)
    | _ => some ([], rest)
  let (power, rest) ← exponent rest
  return (.num (String.ofList (sign ++ whole ++ fraction ++ power)), rest)

def skip (cs : List Char) : List Char := cs.dropWhile isSpace

mutual

/-- A value at the beginning of a text. -/
def value : ℕ → ℕ → List Char → Option (Value × List Char)
  | 0, _, _ => none
  | n + 1, depth, cs => match skip cs with
    | 'n' :: 'u' :: 'l' :: 'l' :: rest => some (.null, rest)
    | 't' :: 'r' :: 'u' :: 'e' :: rest => some (.bool true, rest)
    | 'f' :: 'a' :: 'l' :: 's' :: 'e' :: rest => some (.bool false, rest)
    | '"' :: rest => (body n rest).map fun (s, rest) => (.str (String.ofList s), rest)
    | '[' :: rest => if depth = 0 then none else match skip rest with
      | ']' :: rest => some (.arr [], rest)
      | rest => (items n (depth - 1) rest).map fun (vs, rest) => (.arr vs, rest)
    | '{' :: rest => if depth = 0 then none else match skip rest with
      | '}' :: rest => some (.obj [], rest)
      | rest => (members n (depth - 1) rest).map fun (ms, rest) => (.obj ms, rest)
    | rest => number rest

/-- Values with commas between them, and a bracket behind. -/
def items : ℕ → ℕ → List Char → Option (List Value × List Char)
  | 0, _, _ => none
  | n + 1, depth, cs => do
    let (v, rest) ← value n depth cs
    match skip rest with
    | ']' :: rest => some ([v], rest)
    | ',' :: rest => (items n depth rest).map fun (vs, rest) => (v :: vs, rest)
    | _ => none

/-- Members with commas between them, and a brace behind. -/
def members : ℕ → ℕ → List Char → Option (List (String × Value) × List Char)
  | 0, _, _ => none
  | n + 1, depth, cs => match skip cs with
    | '"' :: rest => do
      let (k, rest) ← body n rest
      match skip rest with
      | ':' :: rest => do
        let (v, rest) ← value n depth rest
        match skip rest with
        | '}' :: rest => some ([(String.ofList k, v)], rest)
        | ',' :: rest => (members n depth rest).map fun (ms, rest) => ((String.ofList k, v) :: ms, rest)
        | _ => none
      | _ => none
    | _ => none

end

/-- A text with one value and spaces around it. -/
def read (depth : ℕ) (cs : List Char) : Option Value :=
  match value (cs.length + 1) depth cs with
  | some (v, rest) => if (skip rest).isEmpty then some v else none
  | none => none

/-! ## Strings that are written letter by letter -/

variable {c : Char} {s w rest : List Char} {n depth : ℕ}

/-- A text inside of a string that is read as a letter. -/
def Spells (c : Char) (w : List Char) : Prop :=
  ∀ n rest, body (n + 1) (w ++ rest) = (body n rest).map fun (s, r) => (c :: s, r)

theorem spells_self (hquote : c ≠ '"') (hback : c ≠ '\\') (hc : isControl c = false) : Spells c [c] := by
  intro n rest
  rw [List.singleton_append, body]
  · rw [hc]
    rfl
  · exact fun h => hquote h
  · exact fun h => hback h

/-- A letter behind a backslash. -/
theorem spells_escaped (h : ∀ rest, escaped (w ++ rest) = some (c, rest)) : Spells c ('\\' :: w) := by
  intro n rest
  rw [List.cons_append, body, h]
  rfl

theorem body_control (hc : isControl c = true) : body n (c :: rest) = none := by
  cases n with
  | zero => rfl
  | succ n =>
    have hquote : c ≠ '"' := by
      rintro rfl
      cases hc
    have hback : c ≠ '\\' := by
      rintro rfl
      cases hc
    rw [body]
    · rw [hc]
      rfl
    · exact fun h => hquote h
    · exact fun h => hback h

theorem length_le_flatMap {f : Char → List Char} (hne : ∀ c, f c ≠ []) (s : List Char) :
    s.length ≤ (s.flatMap f).length := by
  induction s with
  | nil => exact Nat.zero_le _
  | cons c s ih =>
    have hpos := List.length_pos_of_ne_nil (hne c)
    rw [List.flatMap_cons, List.length_cons, List.length_append]
    omega

/-- A string that is written letter by letter is read as it is, or not at all. -/
theorem body_flatMap {f : Char → List Char} (hf : ∀ c, isControl c = false → Spells c (f c))
    (hf' : ∀ c, isControl c = true → f c = [c]) (hn : s.length < n) :
    body n (s.flatMap f ++ '"' :: rest) = if s.any isControl then none else some (s, rest) := by
  induction s generalizing n with
  | nil =>
    obtain ⟨n, rfl⟩ := Nat.exists_eq_add_one_of_ne_zero (Nat.ne_of_gt hn)
    rfl
  | cons c s ih =>
    rw [List.length_cons] at hn
    obtain ⟨n, rfl⟩ := Nat.exists_eq_add_one_of_ne_zero (Nat.ne_of_gt (Nat.zero_lt_of_lt hn))
    rw [List.flatMap_cons, List.append_assoc, List.any_cons]
    cases hc : isControl c with
    | true =>
      rw [hf' c hc]
      exact body_control hc
    | false =>
      rw [hf c hc, ih (Nat.lt_of_succ_lt_succ hn)]
      rw [Bool.false_or]
      split_ifs <;> rfl

/-! ## Texts that are written without a library -/

variable {t : List Char} {v : Option Value}

/-- A text that is read as a value, or refused, whatever is behind it. -/
def WrittenAs (depth : ℕ) (t : List Char) (v : Option Value) : Prop :=
  ∀ n rest, t.length < n → value n depth (t ++ rest) = v.map fun v => (v, rest)

theorem written_null : WrittenAs depth "null".toList (some .null) := by
  intro n rest hn
  obtain ⟨n, rfl⟩ := Nat.exists_eq_add_one_of_ne_zero (Nat.ne_of_gt (Nat.zero_lt_of_lt hn))
  rfl

theorem written_false : WrittenAs depth "false".toList (some (.bool false)) := by
  intro n rest hn
  obtain ⟨n, rfl⟩ := Nat.exists_eq_add_one_of_ne_zero (Nat.ne_of_gt (Nat.zero_lt_of_lt hn))
  rfl

def strText (w : List Char) : List Char := '"' :: (w ++ ['"'])

theorem written_str {f : Char → List Char} (hf : ∀ c, isControl c = false → Spells c (f c))
    (hf' : ∀ c, isControl c = true → f c = [c]) (hne : ∀ c, f c ≠ []) (s : List Char) :
    WrittenAs depth (strText (s.flatMap f)) 
      (if s.any isControl then none else some (.str (String.ofList s))) := by
  intro n rest hn
  obtain ⟨n, rfl⟩ := Nat.exists_eq_add_one_of_ne_zero (Nat.ne_of_gt (Nat.zero_lt_of_lt hn))
  have hlen : s.length < n := by
    rw [strText, List.length_cons, List.length_append] at hn
    have := length_le_flatMap hne s
    omega
  have htext : strText (s.flatMap f) ++ rest = '"' :: (s.flatMap f ++ '"' :: rest) := by
    rw [strText, List.cons_append, List.append_assoc]
    rfl
  rw [htext, value]
  change (body n (s.flatMap f ++ '"' :: rest)).map _ = _
  rw [body_flatMap hf hf' hlen]
  split_ifs <;> rfl

/-- A name that is written as it is. -/
def PlainKey (k : List Char) : Prop := ∀ c ∈ k, c ≠ '"' ∧ c ≠ '\\' ∧ isControl c = false

instance : Decidable (PlainKey s) := List.decidableBAll _ s

theorem body_plain (hs : PlainKey s) (hn : s.length < n) : body n (s ++ '"' :: rest) = some (s, rest) := by
  induction s generalizing n with
  | nil =>
    obtain ⟨n, rfl⟩ := Nat.exists_eq_add_one_of_ne_zero (Nat.ne_of_gt hn)
    rfl
  | cons c s ih =>
    obtain ⟨hquote, hback, hc⟩ := hs c List.mem_cons_self
    rw [List.length_cons] at hn
    obtain ⟨n, rfl⟩ := Nat.exists_eq_add_one_of_ne_zero (Nat.ne_of_gt (Nat.zero_lt_of_lt hn))
    have hspell := spells_self hquote hback hc n (s ++ '"' :: rest)
    rw [List.singleton_append, ih (fun c hc => hs c (List.mem_cons_of_mem _ hc)) (Nat.lt_of_succ_lt_succ hn)]
      at hspell
    exact hspell

theorem written_plain (hs : PlainKey s) : WrittenAs depth (strText s) (some (.str (String.ofList s))) := by
  intro n rest hn
  obtain ⟨n, rfl⟩ := Nat.exists_eq_add_one_of_ne_zero (Nat.ne_of_gt (Nat.zero_lt_of_lt hn))
  have htext : strText s ++ rest = '"' :: (s ++ '"' :: rest) := by
    rw [strText, List.cons_append, List.append_assoc]
    rfl
  rw [strText, List.length_cons, List.length_append] at hn
  rw [htext, value]
  change (body n (s ++ '"' :: rest)).map _ = _
  rw [body_plain hs (by omega)]
  rfl

theorem written_string {s : String} (hs : PlainKey s.toList) :
    WrittenAs depth (strText s.toList) (some (.str s)) := by
  have h := @written_plain _ depth hs
  rwa [String.ofList_toList] at h

/-- A member of an object: its name, and how its value is written and read. -/
structure Member where
  key : String
  text : List Char
  meaning : Option Value

def Member.write (p : Member) : List Char := '"' :: (p.key.toList ++ '"' :: ':' :: p.text)

/-- The members that are read of their texts. -/
def readParts : List Member → Option (List (String × Value))
  | [] => some []
  | p :: ps => p.meaning.bind fun v => (readParts ps).map ((p.key, v) :: ·)

def partsText : List Member → List Char
  | [] => ['}']
  | [p] => p.write ++ ['}']
  | p :: ps => p.write ++ ',' :: partsText ps

theorem partsText_cons (p q : Member) (ps : List Member) :
    partsText (p :: q :: ps) = p.write ++ ',' :: partsText (q :: ps) := rfl

def objText (ps : List Member) : List Char := '{' :: partsText ps

/-- One member that is refused is enough. -/
theorem readParts_none {p : Member} {ps : List Member} (hp : p ∈ ps) (h : p.meaning = none) :
    readParts ps = none := by
  induction ps with
  | nil => exact absurd hp List.not_mem_nil
  | cons q ps ih =>
    rw [readParts]
    rcases List.mem_cons.mp hp with rfl | hp
    · rw [h]
      rfl
    · rw [ih hp]
      cases q.meaning <;> rfl

/-- One member, by what is read behind it. -/
theorem members_part {p : Member} (hp : PlainKey p.key.toList ∧ WrittenAs depth p.text p.meaning)
    (hn : p.write.length < n) : members (n + 1) depth (p.write ++ rest) =
      p.meaning.bind fun v => match skip rest with
        | '}' :: rest => some ([(p.key, v)], rest)
        | ',' :: rest => (members n depth rest).map fun (ms, rest) => ((p.key, v) :: ms, rest)
        | _ => none := by
  have hlen : p.write.length = p.key.toList.length + p.text.length + 3 := by
    rw [Member.write, List.length_cons, List.length_append, List.length_cons, List.length_cons]
    omega
  have htext : p.write ++ rest = '"' :: (p.key.toList ++ '"' :: (':' :: (p.text ++ rest))) := by
    rw [Member.write, List.cons_append, List.append_assoc, List.cons_append, List.cons_append]
  rw [htext, members]
  change (body n (p.key.toList ++ '"' :: (':' :: (p.text ++ rest)))).bind _ = _
  rw [body_plain hp.1 (by omega), Option.bind_some]
  change (value n depth (p.text ++ rest)).bind _ = _
  rw [hp.2 n rest (by omega)]
  cases p.meaning with
  | none => rfl
  | some v =>
    dsimp only [Option.map_some, Option.bind_some]
    rw [String.ofList_toList]

theorem members_parts {ps : List Member} (hne : ps ≠ [])
    (hps : ∀ p ∈ ps, PlainKey p.key.toList ∧ WrittenAs depth p.text p.meaning)
    (hn : (partsText ps).length < n) :
    members n depth (partsText ps ++ rest) = (readParts ps).map fun ms => (ms, rest) := by
  induction ps generalizing n with
  | nil => exact absurd rfl hne
  | cons p ps ih =>
    obtain ⟨n, rfl⟩ := Nat.exists_eq_add_one_of_ne_zero (Nat.ne_of_gt (Nat.zero_lt_of_lt hn))
    have hp := hps p List.mem_cons_self
    rw [readParts]
    cases ps with
    | nil =>
      rw [partsText, List.length_append, List.length_singleton] at hn
      rw [partsText, List.append_assoc, members_part hp (by omega)]
      cases p.meaning <;> rfl
    | cons q ps =>
      rw [partsText_cons, List.length_append, List.length_cons] at hn
      rw [partsText_cons, List.append_assoc, members_part hp (by omega)]
      cases p.meaning with
      | none => rfl
      | some m =>
        change (members n depth (partsText (q :: ps) ++ rest)).map _ = _
        rw [ih (by simp) (fun x hx => hps x (List.mem_cons_of_mem p hx)) (by omega)]
        cases readParts (q :: ps) <;> rfl

/-- **An object of members that are read as they are meant** is read so, or refused with one of them. -/
theorem written_obj {ps : List Member} (hne : ps ≠ [])
    (hps : ∀ p ∈ ps, PlainKey p.key.toList ∧ WrittenAs depth p.text p.meaning) :
    WrittenAs (depth + 1) (objText ps) ((readParts ps).map .obj) := by
  intro n rest hn
  obtain ⟨n, rfl⟩ := Nat.exists_eq_add_one_of_ne_zero (Nat.ne_of_gt (Nat.zero_lt_of_lt hn))
  rw [objText, List.length_cons] at hn
  obtain ⟨q, ps', rfl⟩ := List.exists_cons_of_ne_nil hne
  obtain ⟨tail, htail⟩ : ∃ tail, partsText (q :: ps') ++ rest = '"' :: tail := by
    cases ps' with
    | nil => exact ⟨_, rfl⟩
    | cons r ps' => exact ⟨_, rfl⟩
  have hmembers : members n depth (partsText (q :: ps') ++ rest) =
      (readParts (q :: ps')).map fun ms => (ms, rest) :=
    members_parts hne hps (Nat.lt_of_succ_lt_succ hn)
  rw [objText, List.cons_append, value]
  rw [htail] at hmembers ⊢
  change (members n depth ('"' :: tail)).map _ = _
  rw [hmembers]
  cases readParts (q :: ps') <;> rfl

theorem read_written (h : WrittenAs depth t v) : read depth t = v := by
  have hvalue := h (t.length + 1) [] (Nat.lt_succ_self _)
  rw [List.append_nil] at hvalue
  rw [read, hvalue]
  cases v <;> rfl

end JsonText
