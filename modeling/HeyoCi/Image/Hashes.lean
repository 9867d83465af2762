import HeyoCi.Image.Context
import HeyoCi.Lib.Framing

/-!
# What is hashed

* `utf8_inj`, `decode_utf8`: a text is known by its bytes, and read from them;
* `low_mem_utf8EncodeChar`, `zero_notMem_utf8`: a byte of ASCII is a character, a zero byte a NUL;
* `framedOn_name`: texts without a NUL, with one behind;
* `Crates.Ideal`: the hash on the byte strings it is taken of; `Crates.Ideal.framedOn`: its digests.
-/

namespace HeyoCi

open Framing

/-! ## Texts -/

theorem toList_loop (bs : ByteArray) (i : Nat) (r : Bytes) :
    ByteArray.toList.loop bs i r = r.reverse ++ bs.data.toList.drop i := by
  fun_induction ByteArray.toList.loop bs i r with
  | case1 i r hlt ih =>
    have hget : bs.get! i = bs.data.toList[i] := by
      change bs.data[i]! = _
      rw [getElem!_pos bs.data i hlt, Array.getElem_toList]
    rw [ih, List.reverse_cons, List.append_assoc, hget, List.singleton_append, List.getElem_cons_drop]
  | case2 i r hle =>
    have hsize : bs.data.toList.length ≤ i := by
      rw [Array.length_toList]
      exact Nat.le_of_not_lt hle
    rw [List.drop_eq_nil_of_le hsize, List.append_nil]

theorem utf8_eq_flatMap (s : String) : utf8 s = s.toList.flatMap String.utf8EncodeChar := by
  have h : s.toUTF8 = (s.toList.flatMap String.utf8EncodeChar).toByteArray :=
    String.utf8Encode_toList.symm
  rw [utf8, h, ByteArray.toList, toList_loop]
  simp

theorem utf8_inj {s t : String} : utf8 s = utf8 t ↔ s = t := by
  refine ⟨fun h => ?_, fun h => congrArg utf8 h⟩
  rw [utf8_eq_flatMap, utf8_eq_flatMap] at h
  have hbytes := congrArg List.toByteArray h
  exact String.toByteArray_inj.mp (String.utf8Encode_toList.symm.trans
    (hbytes.trans String.utf8Encode_toList))

/-- A byte of ASCII is a character of its own. -/
theorem low_mem_utf8EncodeChar {c : Char} {b : UInt8} (hb : b.toNat < 128)
    (h : b ∈ String.utf8EncodeChar c) : c.toNat = b.toNat := by
  have hbyte : ∀ n m : Nat, 128 ≤ m → n + m < 256 → b ≠ UInt8.ofNat (n + m) := by
    intro n m hm hlt heq
    have hmod : b.toNat = (n + m) % 256 := by simpa using congrArg UInt8.toNat heq
    omega
  unfold String.utf8EncodeChar at h
  simp only at h
  split_ifs at h with h₁ h₂ h₃ <;> simp only [List.mem_cons, List.not_mem_nil, or_false] at h
  · have hmod : b.toNat = c.val.toNat % 256 := by simpa using congrArg UInt8.toNat h
    change c.val.toNat = b.toNat
    omega
  · rcases h with h | h <;> exact absurd h (hbyte _ _ (by omega) (by omega))
  · rcases h with h | h | h <;> exact absurd h (hbyte _ _ (by omega) (by omega))
  · rcases h with h | h | h | h <;> exact absurd h (hbyte _ _ (by omega) (by omega))

theorem zero_mem_utf8EncodeChar {c : Char} (h : 0 ∈ String.utf8EncodeChar c) : c = '\x00' := by
  have hzero : c.toNat = 0 := low_mem_utf8EncodeChar (by decide) h
  exact Char.ext (UInt32.toNat_inj.mp hzero)

theorem zero_notMem_utf8 {s : String} (h : '\x00' ∉ s.toList) : 0 ∉ utf8 s := by
  rw [utf8_eq_flatMap, List.mem_flatMap]
  rintro ⟨c, hc, hzero⟩
  exact h (zero_mem_utf8EncodeChar hzero ▸ hc)

theorem decode_utf8 (s : String) : decode (utf8 s) = some s := by
  have hbytes : (⟨(utf8 s).toArray⟩ : ByteArray) = s.toUTF8 := by
    rw [utf8, ByteArray.toList, toList_loop]
    simp
  rw [decode, hbytes]
  exact dif_pos s.isValidUTF8

/-- Texts without a NUL, with one behind. -/
theorem framedOn_name : FramedOn {s : String | '\x00' ∉ s.toList} fun s => utf8 s ++ [0] :=
  framedOn_ended (fun _ hs => zero_notMem_utf8 hs) fun _ _ _ _ h => utf8_inj.mp h

/-! ## Digests -/

/-- **The hash is ideal on some byte strings**: a digest has 32 bytes, and what is kept of it is that of
one string only. -/
structure Crates.Ideal (c : Crates) (hashed : Set Bytes) : Prop where
  length : ∀ x ∈ hashed, (c.sha256 x).length = 32
  inj : Set.InjOn c.digest hashed

theorem Crates.Ideal.framedOn {c : Crates} {hashed : Set Bytes} (h : c.Ideal hashed) :
    FramedOn hashed c.sha256 := by
  refine framedOn_fixed h.length fun x hx y hy heq => h.inj hx hy ?_
  rw [digest, digest, heq]

end HeyoCi
