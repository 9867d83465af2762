import HeyoCi.Ids.Mint
import HeyoCi.Image.Context
import HeyoCi.Submit.Trim

/-!
# Submit tokens

A token is the id of its row and a secret of 32 bytes; the row has a digest of the secret.

* `encodeBase64`: bytes as letters; `mem_encodeBase64`, `hex_inj`;
* `Repos.randomSecret`, `Repos.mint`, `Repos.secretMatches`: secrets and their digests;
* `Repos.parseToken`: how a presented token is read; **`parseToken_eq_some`**.
-/

namespace HeyoCi

open Text

/-! ## Secrets and digests -/

/-- The letters of base64url, by their values. -/
def base64Letters : List Char :=
  "ABCDEFGHIJKLMNOPQRSTUVWXYZabcdefghijklmnopqrstuvwxyz0123456789-_".toList

def base64Char (n : Nat) : Char := base64Letters.getD n 'A'

/-- `URL_SAFE_NO_PAD.encode`: three bytes are four letters, and no padding. -/
def encodeBase64 : Bytes → List Char
  | a :: b :: c :: rest =>
    [base64Char (a.toNat / 4), base64Char (a.toNat % 4 * 16 + b.toNat / 16),
      base64Char (b.toNat % 16 * 4 + c.toNat / 64), base64Char (c.toNat % 64)] ++ encodeBase64 rest
  | [a, b] => [base64Char (a.toNat / 4), base64Char (a.toNat % 4 * 16 + b.toNat / 16),
      base64Char (b.toNat % 16 * 4)]
  | [a] => [base64Char (a.toNat / 4), base64Char (a.toNat % 4 * 16)]
  | [] => []

theorem base64Char_mem (n : Nat) : base64Char n ∈ base64Letters := by
  rw [base64Char, List.getD_eq_getElem?_getD]
  cases h : base64Letters[n]? with
  | none => decide
  | some c => exact List.mem_of_getElem? h

theorem mem_encodeBase64 {bytes : Bytes} {c : Char} (h : c ∈ encodeBase64 bytes) :
    c ∈ base64Letters := by
  induction bytes using encodeBase64.induct with
  | case1 a b d rest ih =>
    rcases List.mem_append.mp h with h | h
    · simp only [List.mem_cons, List.not_mem_nil, or_false] at h
      rcases h with rfl | rfl | rfl | rfl <;> exact base64Char_mem _
    · exact ih h
  | case2 a b =>
    simp only [encodeBase64, List.mem_cons, List.not_mem_nil, or_false] at h
    rcases h with rfl | rfl | rfl <;> exact base64Char_mem _
  | case3 a =>
    simp only [encodeBase64, List.mem_cons, List.not_mem_nil, or_false] at h
    rcases h with rfl | rfl <;> exact base64Char_mem _
  | case4 => cases h

theorem encodeBase64_ne_nil {bytes : Bytes} (h : bytes ≠ []) : encodeBase64 bytes ≠ [] := by
  match bytes with
  | [] => exact absurd rfl h
  | [_] | [_, _] | _ :: _ :: _ :: _ => exact List.cons_ne_nil _ _

/-- A digest is known by its text. -/
theorem hex_inj {bytes bytes' : Bytes} (h : hex bytes = hex bytes') : bytes = bytes' := by
  have hdigit : ∀ m n : Fin 16, (m : Nat).digitChar = (n : Nat).digitChar → m = n := by decide
  rw [hex, hex, String.ofList_inj] at h
  induction bytes generalizing bytes' with
  | nil =>
    cases bytes' with
    | nil => rfl
    | cons b' bytes' => simp at h
  | cons b bytes ih =>
    cases bytes' with
    | nil => simp at h
    | cons b' bytes' =>
      have hb := b.toNat_lt
      have hb' := b'.toNat_lt
      simp only [List.flatMap_cons, List.cons_append, List.nil_append, List.cons.injEq] at h
      obtain ⟨hhigh, hlow, hrest⟩ := h
      have hhigh := hdigit ⟨b.toNat / 16, by omega⟩ ⟨b'.toNat / 16, by omega⟩ hhigh
      have hlow := hdigit ⟨b.toNat % 16, by omega⟩ ⟨b'.toNat % 16, by omega⟩ hlow
      rw [Fin.mk.injEq] at hhigh hlow
      have hbytes : b.toNat = b'.toNat := by omega
      rw [UInt8.toNat_inj.mp hbytes, ih hrest]

/-! ## Tokens as texts -/

namespace Repos

/-- `TOKEN_PREFIX`. -/
def tokenPrefix : String := "cis_"

/-- `random_secret`, of the bytes that were drawn. -/
def randomSecret (bytes : Vector UInt8 32) : String := String.ofList (encodeBase64 bytes.toList)

/-- The plaintext of a token. -/
def tokenText (keyId secret : String) : String := s!"{tokenPrefix}{keyId}.{secret}"

/-- A freshly minted token. -/
structure Minted where
  keyId : String
  secretHash : String
  plaintext : String
  deriving Repr, DecidableEq

section Digest

variable (sha256 : Bytes → Bytes)

def hashSecret (secret : String) : String := hex (sha256 (utf8 secret))

/-- Mint a token for the row `keyId`. -/
def mint (keyId : String) (bytes : Vector UInt8 32) : Minted where
  keyId := keyId
  secretHash := hashSecret sha256 (randomSecret bytes)
  plaintext := tokenText keyId (randomSecret bytes)

/-- Whether a presented secret matches a stored digest. -/
def secretMatches (secret storedHash : String) : Bool :=
  let computed := hashSecret sha256 secret
  computed.utf8ByteSize = storedHash.utf8ByteSize && computed = storedHash

end Digest

/-- A letter of a key id. -/
def isKeyChar (c : Char) : Bool := c.isAlphanum || c = '-'

/-- `parse`: split a presented token into its key id and its secret. -/
def parseToken (token : String) : Option (String × String) :=
  (stripPrefix tokenPrefix (trim token)).bind fun rest =>
    (splitOnce '.' rest.toList).bind fun (keyId, secret) =>
      if keyId.isEmpty || secret.isEmpty then none
      else if keyId.all isKeyChar then some (String.ofList keyId, String.ofList secret)
      else none

theorem toList_tokenText (keyId secret : String) :
    (tokenText keyId secret).toList = tokenPrefix.toList ++ (keyId.toList ++ '.' :: secret.toList) := by
  simp [tokenText, toString]

/-- **What is read as a token** is the plaintext of one, whose key id has the letters of ids. -/
theorem parseToken_eq_some {t keyId secret : String} : parseToken t = some (keyId, secret) ↔
    trim t = tokenText keyId secret ∧ keyId ≠ "" ∧ secret ≠ "" ∧
      keyId.toList.all isKeyChar = true := by
  have hdot : isKeyChar '.' = false := by decide
  simp only [parseToken, Option.bind_eq_some_iff, stripPrefix_eq_some, Prod.exists,
    splitOnce_eq_some]
  constructor
  · rintro ⟨rest, hrest, k, v, ⟨hsplit, -⟩, h⟩
    split_ifs at h with hempty hall
    cases h
    rw [Bool.or_eq_true, List.isEmpty_iff, List.isEmpty_iff, not_or] at hempty
    refine ⟨?_, ?_, ?_, ?_⟩
    · rw [← String.toList_inj, toList_tokenText, hrest, hsplit, String.toList_ofList,
        String.toList_ofList]
    · exact fun h => hempty.1 (by simpa using congrArg String.toList h)
    · exact fun h => hempty.2 (by simpa using congrArg String.toList h)
    · rwa [String.toList_ofList]
  · rintro ⟨htext, hkey, hsecret, hall⟩
    refine ⟨String.ofList (keyId.toList ++ '.' :: secret.toList), ?_, keyId.toList, secret.toList,
      ⟨String.toList_ofList, fun hmem => ?_⟩, ?_⟩
    · rw [htext, toList_tokenText, String.toList_ofList]
    · rw [List.all_eq_true.mp hall '.' hmem] at hdot
      cases hdot
    · rw [if_neg, if_pos hall, String.ofList_toList, String.ofList_toList]
      rw [Bool.or_eq_true, List.isEmpty_iff, List.isEmpty_iff, String.toList_eq_nil_iff,
        String.toList_eq_nil_iff, not_or]
      exact ⟨hkey, hsecret⟩

end Repos

end HeyoCi
