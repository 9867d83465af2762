import Mathlib.Data.Fin.Basic
import Mathlib.Data.List.Basic
import Mathlib.Tactic.SplitIfs

/-!
# Base64

The standard letters, with padding. Only the text that bytes are written as is read.

* `sextets`, `bytes`: bytes in groups of six bits, and back; `bytes_sextets`, `sextets_of_bytes`;
* `encode`, `decode`: the same as text; **`decode_eq_some`**, `encode_inj`;
* `chunks`, **`chunks_encode`**: pieces of a number of letters that four divides are read by themselves.
-/

namespace Base64

/-! ## Groups of six bits -/

def sextet (n : ℕ) : Fin 64 := Fin.ofNat 64 n

/-- Three bytes are four groups, and what is left is filled up with zeros. -/
def sextets : List UInt8 → List (Fin 64)
  | a :: b :: c :: rest => sextet (a.toNat / 4) :: sextet (a.toNat % 4 * 16 + b.toNat / 16) ::
      sextet (b.toNat % 16 * 4 + c.toNat / 64) :: sextet (c.toNat % 64) :: sextets rest
  | [a, b] => [sextet (a.toNat / 4), sextet (a.toNat % 4 * 16 + b.toNat / 16),
      sextet (b.toNat % 16 * 4)]
  | [a] => [sextet (a.toNat / 4), sextet (a.toNat % 4 * 16)]
  | [] => []

/-- The bytes of groups, where what is left over is zeros. -/
def bytes : List (Fin 64) → Option (List UInt8)
  | a :: b :: c :: d :: rest => (bytes rest).map fun bs =>
      UInt8.ofNat (a.val * 4 + b.val / 16) :: UInt8.ofNat (b.val % 16 * 16 + c.val / 4) ::
        UInt8.ofNat (c.val % 4 * 64 + d.val) :: bs
  | [a, b, c] => if c.val % 4 = 0 then some [UInt8.ofNat (a.val * 4 + b.val / 16),
      UInt8.ofNat (b.val % 16 * 16 + c.val / 4)] else none
  | [a, b] => if b.val % 16 = 0 then some [UInt8.ofNat (a.val * 4 + b.val / 16)] else none
  | [_] => none
  | [] => some []

theorem val_sextet {n : ℕ} (h : n < 64) : (sextet n).val = n := Nat.mod_eq_of_lt h

theorem toNat_ofNat {n : ℕ} (h : n < 256) : (UInt8.ofNat n).toNat = n := Nat.mod_eq_of_lt h

theorem ofNat_eq {a : UInt8} {n : ℕ} (h : n = a.toNat) : UInt8.ofNat n = a := by
  rw [h, UInt8.ofNat_toNat]

theorem bytes_sextets (bs : List UInt8) : bytes (sextets bs) = some bs := by
  induction bs using sextets.induct with
  | case1 a b c rest ih =>
    have ha := a.toNat_lt
    have hb := b.toNat_lt
    have hc := c.toNat_lt
    rw [sextets, bytes, ih, Option.map_some, val_sextet (by omega), val_sextet (by omega),
      val_sextet (by omega), val_sextet (by omega), ofNat_eq (a := a) (by omega),
      ofNat_eq (a := b) (by omega), ofNat_eq (a := c) (by omega)]
  | case2 a b =>
    have ha := a.toNat_lt
    have hb := b.toNat_lt
    rw [sextets, bytes, val_sextet (by omega), val_sextet (by omega), val_sextet (by omega),
      if_pos (by omega), ofNat_eq (a := a) (by omega), ofNat_eq (a := b) (by omega)]
  | case3 a =>
    have ha := a.toNat_lt
    rw [sextets, bytes, val_sextet (by omega), val_sextet (by omega), if_pos (by omega),
      ofNat_eq (a := a) (by omega)]
  | case4 => rfl

theorem sextet_eq {x : Fin 64} {n : ℕ} (h : n = x.val) : sextet n = x := by
  rw [Fin.ext_iff, val_sextet (h ▸ x.isLt), h]

theorem sextets_of_bytes {xs : List (Fin 64)} {bs : List UInt8} (h : bytes xs = some bs) :
    xs = sextets bs := by
  induction xs using bytes.induct generalizing bs with
  | case1 a b c d rest ih =>
    rw [bytes, Option.map_eq_some_iff] at h
    obtain ⟨bs', hrest, rfl⟩ := h
    rw [sextets, ← ih hrest, toNat_ofNat (by omega), toNat_ofNat (by omega), toNat_ofNat (by omega),
      sextet_eq (x := a) (by omega), sextet_eq (x := b) (by omega), sextet_eq (x := c) (by omega),
      sextet_eq (x := d) (by omega)]
  | case2 a b c hzero =>
    rw [bytes, if_pos hzero] at h
    rw [← Option.some.inj h, sextets, toNat_ofNat (by omega), toNat_ofNat (by omega),
      sextet_eq (x := a) (by omega), sextet_eq (x := b) (by omega), sextet_eq (x := c) (by omega)]
  | case3 a b c hzero =>
    rw [bytes, if_neg hzero] at h
    cases h
  | case4 a b hzero =>
    rw [bytes, if_pos hzero] at h
    rw [← Option.some.inj h, sextets, toNat_ofNat (by omega), sextet_eq (x := a) (by omega),
      sextet_eq (x := b) (by omega)]
  | case5 a b hzero =>
    rw [bytes, if_neg hzero] at h
    cases h
  | case6 a => cases h
  | case7 =>
    rw [← Option.some.inj h]
    rfl

/-! ## Text -/

/-- The letters, by their values. -/
def letters : List Char :=
  "ABCDEFGHIJKLMNOPQRSTUVWXYZabcdefghijklmnopqrstuvwxyz0123456789+/".toList

def letter (x : Fin 64) : Char := letters.getD x.val 'A'

/-- The value of a letter. -/
def value (c : Char) : Option (Fin 64) := (List.finRange 64).find? fun x => letter x = c

/-- The padding behind a number of letters, which makes it a multiple of four. -/
def pad (n : ℕ) : List Char := List.replicate ((4 - n % 4) % 4) '='

def encode (bs : List UInt8) : List Char :=
  (sextets bs).map letter ++ pad (sextets bs).length

def decode (cs : List Char) : Option (List UInt8) :=
  let body := cs.takeWhile (· ≠ '=')
  if cs = body ++ pad body.length then (body.mapM value).bind bytes else none

/-- A letter of the alphabet. -/
def isLetter (c : Char) : Bool := c.isAlphanum || c = '+' || c = '/'

theorem isLetter_letter : ∀ x : Fin 64, isLetter (letter x) = true := by decide +kernel

theorem letter_ne_pad (x : Fin 64) : letter x ≠ '=' := by
  intro hx
  have h := isLetter_letter x
  rw [hx] at h
  cases h

theorem value_letter : ∀ x : Fin 64, value (letter x) = some x := by decide +kernel

theorem value_eq_some {c : Char} {x : Fin 64} : value c = some x ↔ letter x = c := by
  constructor
  · intro h
    simpa using List.find?_some h
  · rintro rfl
    exact value_letter x

theorem mapM_value {cs : List Char} {xs : List (Fin 64)} :
    cs.mapM value = some xs ↔ cs = xs.map letter := by
  induction cs generalizing xs with
  | nil => cases xs <;> simp
  | cons c cs ih =>
    rw [List.mapM_cons]
    cases xs with
    | nil => simp [Option.bind_eq_some_iff]
    | cons x xs =>
      simp only [Option.bind_eq_bind, Option.bind_eq_some_iff, Option.pure_def, Option.some.injEq,
        List.cons.injEq, value_eq_some, ih, List.map_cons]
      constructor
      · rintro ⟨y, rfl, ys, rfl, rfl, rfl⟩
        exact ⟨rfl, rfl⟩
      · rintro ⟨rfl, rfl⟩
        exact ⟨x, rfl, xs, rfl, rfl, rfl⟩

theorem takeWhile_encode (bs : List UInt8) :
    (encode bs).takeWhile (· ≠ '=') = (sextets bs).map letter := by
  rw [encode, List.takeWhile_append_of_pos]
  · have hpad : (pad (sextets bs).length).takeWhile (· ≠ '=') = [] := by
      rw [pad]
      cases (4 - (sextets bs).length % 4) % 4 <;> simp [List.replicate_succ]
    rw [hpad, List.append_nil]
  · intro c hc
    obtain ⟨x, -, rfl⟩ := List.mem_map.mp hc
    exact decide_eq_true (letter_ne_pad x)

/-- **The text that is read is that of the bytes.** -/
theorem decode_eq_some {cs : List Char} {bs : List UInt8} :
    decode cs = some bs ↔ cs = encode bs := by
  constructor
  · intro h
    rw [decode] at h
    split_ifs at h with hpad
    obtain ⟨xs, hxs, hbs⟩ := Option.bind_eq_some_iff.mp h
    rw [mapM_value] at hxs
    rw [hpad, hxs, List.length_map, encode, sextets_of_bytes hbs]
  · rintro rfl
    rw [decode, takeWhile_encode, List.length_map]
    change (if encode bs = encode bs then _ else _) = _
    rw [if_pos rfl, mapM_value.mpr rfl, Option.bind_some, bytes_sextets]

theorem encode_inj {bs bs' : List UInt8} (h : encode bs = encode bs') : bs = bs' := by
  have hread := decode_eq_some.mpr h
  rw [decode_eq_some.mpr rfl] at hread
  exact Option.some.inj hread

theorem decode_eq_none {cs : List Char} : decode cs = none ↔ ∀ bs, cs ≠ encode bs := by
  rw [Option.eq_none_iff_forall_ne_some]
  exact forall_congr' fun bs => not_congr decode_eq_some

/-- A text has letters of the alphabet and padding. -/
theorem mem_encode {bs : List UInt8} {c : Char} (h : c ∈ encode bs) : isLetter c = true ∨ c = '=' := by
  rw [encode, List.mem_append, List.mem_map] at h
  rcases h with ⟨x, -, rfl⟩ | hpad
  · exact Or.inl (isLetter_letter x)
  · exact Or.inr (List.eq_of_mem_replicate hpad)

/-! ## In pieces -/

theorem sextets_append {xs : List UInt8} (h : 3 ∣ xs.length) (ys : List UInt8) :
    sextets (xs ++ ys) = sextets xs ++ sextets ys := by
  induction xs using sextets.induct with
  | case1 a b c rest ih =>
    have hrest : 3 ∣ rest.length := (Nat.dvd_add_left (Nat.dvd_refl 3)).mp h
    change _ :: _ :: _ :: _ :: sextets (rest ++ ys) = _
    rw [ih hrest]
    rfl
  | case2 a b => exact absurd h (by simp)
  | case3 a => exact absurd h (by simp)
  | case4 => rfl

theorem length_sextets (bs : List UInt8) : (sextets bs).length = (4 * bs.length + 2) / 3 := by
  induction bs using sextets.induct with
  | case1 a b c rest ih =>
    rw [sextets, List.length_cons, List.length_cons, List.length_cons, List.length_cons, ih,
      List.length_cons, List.length_cons, List.length_cons]
    omega
  | case2 a b => simp [sextets]
  | case3 a => simp [sextets]
  | case4 => rfl

theorem length_encode (bs : List UInt8) : (encode bs).length = 4 * ((bs.length + 2) / 3) := by
  rw [encode, List.length_append, List.length_map, pad, List.length_replicate, length_sextets]
  omega

theorem encode_append {xs : List UInt8} (h : 3 ∣ xs.length) (ys : List UInt8) :
    encode (xs ++ ys) = encode xs ++ encode ys := by
  have hxs : (sextets xs).length % 4 = 0 := by
    rw [length_sextets]
    omega
  have hpad : pad (sextets xs).length = [] := by
    rw [pad, hxs]
    rfl
  have hpads : pad ((sextets xs).length + (sextets ys).length) = pad (sextets ys).length := by
    rw [pad, pad, Nat.add_mod, hxs, Nat.zero_add, Nat.mod_mod]
  rw [encode, encode, encode, sextets_append h, List.map_append, List.length_append, hpads, hpad,
    List.append_nil, List.append_assoc]

/-- The text of the first bytes, and that of the others. -/
theorem split_encode (bs : List UInt8) (m : ℕ) :
    (encode bs).take (4 * m) = encode (bs.take (3 * m)) ∧
      (encode bs).drop (4 * m) = encode (bs.drop (3 * m)) := by
  by_cases hm : 3 * m ≤ bs.length
  · have hlen : (bs.take (3 * m)).length = 3 * m := List.length_take_of_le hm
    have hsize : (encode (bs.take (3 * m))).length = 4 * m := by
      rw [length_encode, hlen]
      omega
    have hsplit : encode bs = encode (bs.take (3 * m)) ++ encode (bs.drop (3 * m)) := by
      rw [← encode_append (by omega), List.take_append_drop]
    rw [hsplit]
    exact ⟨List.take_left' hsize, List.drop_left' hsize⟩
  · have hsize : (encode bs).length ≤ 4 * m := by
      rw [length_encode]
      omega
    rw [List.take_of_length_le hsize, List.drop_of_length_le hsize, List.take_of_length_le (by omega),
      List.drop_of_length_le (by omega)]
    exact ⟨rfl, rfl⟩

section

variable {α β : Type}

/-- A list in pieces of so many elements, the last one as long as what is left. -/
def chunks (n : ℕ) (xs : List α) : List (List α) :=
  (List.range ((xs.length + n - 1) / n)).map fun i => (xs.drop (n * i)).take n

theorem length_chunks (n : ℕ) (xs : List α) : (chunks n xs).length = (xs.length + n - 1) / n := by
  rw [chunks, List.length_map, List.length_range]

/-- The first pieces make the beginning of the list. -/
theorem flatten_take_chunks {n : ℕ} (hn : 0 < n) (xs : List α) (k : ℕ) :
    ((chunks n xs).take k).flatten = xs.take (n * k) := by
  have hfirst : ∀ j, ((List.range j).map fun i => (xs.drop (n * i)).take n).flatten =
      xs.take (n * j) := by
    intro j
    induction j with
    | zero => rw [Nat.mul_zero, List.take_zero, List.range_zero, List.map_nil, List.flatten_nil]
    | succ j ih =>
      rw [List.range_succ, List.map_append, List.flatten_append, ih, Nat.mul_succ, List.take_add,
        List.map_singleton, List.flatten_singleton]
  rw [chunks, ← List.map_take, List.take_range, hfirst]
  by_cases hk : k ≤ (xs.length + n - 1) / n
  · rw [Nat.min_eq_left hk]
  · have hall : xs.length ≤ n * ((xs.length + n - 1) / n) := by
      have hdiv := Nat.div_add_mod (xs.length + n - 1) n
      have hmod := Nat.mod_lt (xs.length + n - 1) hn
      omega
    rw [Nat.min_eq_right (by omega), List.take_of_length_le hall, List.take_of_length_le]
    exact hall.trans (Nat.mul_le_mul_left n (by omega))

theorem flatten_chunks {n : ℕ} (hn : 0 < n) (xs : List α) : (chunks n xs).flatten = xs := by
  have h := flatten_take_chunks hn xs ((chunks n xs).length + xs.length)
  rw [List.take_of_length_le (by omega), List.take_of_length_le] at h
  · exact h
  · exact (Nat.le_mul_of_pos_left xs.length hn).trans (Nat.mul_le_mul_left n (by omega))

end

/-- **The pieces of a text are the texts of the pieces.** -/
theorem chunks_encode {k : ℕ} (hk : 0 < k) (bs : List UInt8) :
    chunks (4 * k) (encode bs) = (chunks (3 * k) bs).map encode := by
  have hcount : ((encode bs).length + 4 * k - 1) / (4 * k) = (bs.length + 3 * k - 1) / (3 * k) := by
    have hfour : ((encode bs).length + 4 * k - 1) / 4 = (bs.length + 2) / 3 + k - 1 := by
      rw [length_encode]
      omega
    have hthree : (bs.length + 3 * k - 1) / 3 = (bs.length + 2) / 3 + k - 1 := by omega
    rw [← Nat.div_div_eq_div_mul, ← Nat.div_div_eq_div_mul, hfour, hthree]
  rw [chunks, chunks, hcount, List.map_map]
  refine List.map_congr_left fun i _ => ?_
  rw [Nat.mul_assoc, (split_encode bs (k * i)).2, (split_encode _ k).1, ← Nat.mul_assoc]
  rfl

theorem mapM_decode (parts : List (List UInt8)) : (parts.map encode).mapM decode = some parts := by
  induction parts with
  | nil => rfl
  | cons part parts ih =>
    rw [List.map_cons, List.mapM_cons, decode_eq_some.mpr rfl, ih]
    rfl

/-- No padding and no letter is left out. -/
example : decode "aGk=".toList = some [104, 105] ∧ decode "aGk".toList = none ∧
    decode "aGl=".toList = none := by decide

end Base64
