import HeyoCi.Image.Hashes
import HeyoCi.Nats.Hidden

/-!
# Credentials in a URL

* `hexDigit`, `Writes`: the texts that are written with escapes, and what they are written for;
  `percentEncode`: the one that escapes all but the unreserved characters;
* `unescape_writes`, **`percentDecode_writes`**: what was written is read;
* `Server`, `Carries`: a server, and the userinfo of a credential;
* **`resolve_credentials`**: a URL with one credential for all its servers is that credential and the
  addresses of the servers.
-/

namespace HeyoCi.Nats

open Text

/-! ## Texts with escapes -/

/-- `to_digit(16)` of a character. -/
def hexDigit (c : Char) : Option Nat :=
  if c.toNat < 128 then hexOf (UInt8.ofNat c.toNat) else none

/-- Behind a percent sign these characters make an escape. -/
def beginsHex : List Char → Bool
  | c :: d :: _ => (hexDigit c).isSome && (hexDigit d).isSome
  | _ => false

/-- A text stands for these bytes: `plain` characters for themselves, a percent sign only where it does
not look like an escape. -/
inductive Writes (plain : Char → Bool) : List Char → Bytes → Prop
  | nil : Writes plain [] []
  | letter {c : Char} {cs : List Char} {bytes : Bytes} (hc : plain c = true)
      (hpercent : c = '%' → beginsHex cs = false) (h : Writes plain cs bytes) :
      Writes plain (c :: cs) (String.utf8EncodeChar c ++ bytes)
  | escape {c d : Char} {high low : Nat} {cs : List Char} {bytes : Bytes}
      (hc : hexDigit c = some high) (hd : hexDigit d = some low) (h : Writes plain cs bytes) :
      Writes plain ('%' :: c :: d :: cs) (UInt8.ofNat (high * 16 + low) :: bytes)

/-- Letters, digits and `-._~`. -/
def isUnreserved (c : Char) : Bool := c.isAlphanum || ['-', '.', '_', '~'].contains c

/-- All bytes but the unreserved characters are escaped. -/
def percentEncode (bytes : Bytes) : List Char := bytes.flatMap fun b =>
  if isUnreserved (Char.ofNat b.toNat) then [Char.ofNat b.toNat]
  else ['%', (Nat.digitChar (b.toNat / 16)).toUpper, (Nat.digitChar (b.toNat % 16)).toUpper]

theorem utf8EncodeChar_ascii {c : Char} (h : c.toNat < 128) :
    String.utf8EncodeChar c = [UInt8.ofNat c.toNat] := by
  have hval : c.val ≤ 127 := by
    change c.val.toNat ≤ 127
    exact Nat.le_of_lt_succ h
  rw [String.utf8EncodeChar_eq_singleton (Char.utf8Size_eq_one_iff.mpr hval)]
  rfl

theorem hexOf_lt {b : UInt8} {n : Nat} (h : hexOf b = some n) : b.toNat < 128 ∧ n < 16 := by
  unfold hexOf at h
  simp only at h
  split_ifs at h <;> cases h <;> omega

theorem hexDigit_ascii {c : Char} {n : Nat} (h : hexDigit c = some n) :
    c.toNat < 128 ∧ hexOf (UInt8.ofNat c.toNat) = some n := by
  unfold hexDigit at h
  split_ifs at h with hc
  exact ⟨hc, h⟩

theorem hexDigit_digitChar {n : Nat} (h : n < 16) : hexDigit (Nat.digitChar n).toUpper = some n := by
  have hall : ∀ n : Fin 16, hexDigit (Nat.digitChar n).toUpper = some n.val := by decide
  exact hall ⟨n, h⟩

theorem isUnreserved_ascii {c : Char} (h : isUnreserved c = true) : c.toNat < 128 := by
  rw [isUnreserved, Bool.or_eq_true, List.contains_iff_mem] at h
  rcases h with h | h
  · have hval := UInt32.le_iff_toNat_le.mp (Text.ascii_of_isAlphanum h)
    exact Nat.lt_of_le_of_lt hval (by decide)
  · revert h
    revert c
    simp

theorem writes_percentEncode (bytes : Bytes) : Writes isUnreserved (percentEncode bytes) bytes := by
  induction bytes with
  | nil => exact .nil
  | cons b bytes ih =>
    have hb : b.toNat < 256 := b.toNat_lt
    rw [percentEncode, List.flatMap_cons]
    split_ifs with hun
    · have hnat : (Char.ofNat b.toNat).toNat = b.toNat := by
        rw [Char.ofNat, dif_pos (Or.inl (by omega))]
        rfl
      have hself : String.utf8EncodeChar (Char.ofNat b.toNat) = [b] := by
        rw [utf8EncodeChar_ascii (isUnreserved_ascii hun), hnat, UInt8.ofNat_toNat]
      have hletter := Writes.letter hun (fun heq => by rw [heq] at hun; exact absurd hun (by decide)) ih
      rw [hself] at hletter
      exact hletter
    · have hhigh : b.toNat / 16 < 16 := by omega
      have hlow : b.toNat % 16 < 16 := by omega
      have hescape := Writes.escape (hexDigit_digitChar hhigh) (hexDigit_digitChar hlow) ih
      rw [Nat.div_add_mod' b.toNat 16, UInt8.ofNat_toNat] at hescape
      exact hescape

theorem Writes.mono {p q : Char → Bool} (hpq : ∀ c, p c = true → q c = true) {cs : List Char}
    {bytes : Bytes} (h : Writes p cs bytes) : Writes q cs bytes := by
  induction h with
  | nil => exact .nil
  | letter hc hpercent h ih => exact .letter (hpq _ hc) hpercent ih
  | escape hc hd h ih => exact .escape hc hd ih

/-- A text without percent signs stands for itself. -/
theorem writes_self {p : Char → Bool} {cs : List Char} (hp : ∀ c ∈ cs, p c = true)
    (hno : '%' ∉ cs) : Writes p cs (cs.flatMap String.utf8EncodeChar) := by
  induction cs with
  | nil => exact .nil
  | cons c cs ih =>
    rw [List.forall_mem_cons] at hp
    rw [List.mem_cons, not_or] at hno
    exact .letter hp.1 (fun hc => absurd hc.symm hno.1) (ih hp.2 hno.2)

/-! ## What is read -/

theorem unescape_cons_ne {b : UInt8} (hb : b ≠ 37) (rest : Bytes) :
    unescape (b :: rest) = b :: unescape rest := by
  rw [unescape.eq_def]
  simp only
  split
  · exact absurd rfl hb
  · rfl

theorem unescape_append {xs : Bytes} (h : 37 ∉ xs) (ys : Bytes) :
    unescape (xs ++ ys) = xs ++ unescape ys := by
  induction xs with
  | nil => rfl
  | cons b xs ih =>
    rw [List.mem_cons, not_or] at h
    rw [List.cons_append, unescape_cons_ne (Ne.symm h.1), ih h.2, List.cons_append]

/-- A percent sign that is no escape is kept. -/
theorem unescape_percent {rest : Bytes}
    (h : ∀ high low tail, rest = high :: low :: tail → hexOf high = none ∨ hexOf low = none) :
    unescape (37 :: rest) = 37 :: unescape rest := by
  rw [unescape.eq_def]
  simp only
  split
  · rename_i high low tail
    split
    · rename_i hhigh hlow
      rcases h _ _ _ rfl with hnone | hnone
      · rw [hnone] at hhigh; cases hhigh
      · rw [hnone] at hlow; cases hlow
    · rfl
  · rfl

theorem unescape_escape {high low : UInt8} {m n : Nat} (hhigh : hexOf high = some m)
    (hlow : hexOf low = some n) (tail : Bytes) :
    unescape (37 :: high :: low :: tail) = UInt8.ofNat (m * 16 + n) :: unescape tail := by
  rw [unescape.eq_def]
  simp only [hhigh, hlow]

/-- A byte of ASCII at the beginning of a text is its first character. -/
theorem flatMap_eq_cons {cs : List Char} {b : UInt8} {rest : Bytes} (hb : b.toNat < 128)
    (h : cs.flatMap String.utf8EncodeChar = b :: rest) :
    ∃ c ds, cs = c :: ds ∧ c.toNat = b.toNat ∧ ds.flatMap String.utf8EncodeChar = rest := by
  cases cs with
  | nil => cases h
  | cons c ds =>
    have hmem : b ∈ String.utf8EncodeChar c := by
      rw [List.flatMap_cons] at h
      cases henc : String.utf8EncodeChar c with
      | nil => exact absurd henc (by simp)
      | cons b' bs =>
        rw [henc, List.cons_append] at h
        rw [(List.cons.inj h).1]
        exact List.mem_cons_self
    have hc := low_mem_utf8EncodeChar hb hmem
    rw [List.flatMap_cons, utf8EncodeChar_ascii (hc ▸ hb), List.singleton_append] at h
    exact ⟨c, ds, rfl, hc, (List.cons.inj h).2⟩

theorem hexDigit_of_byte {c : Char} {b : UInt8} (h : c.toNat = b.toNat) {n : Nat}
    (hb : hexOf b = some n) : hexDigit c = some n := by
  rw [hexDigit, if_pos (h ▸ (hexOf_lt hb).1), h, UInt8.ofNat_toNat, hb]

/-- **The bytes that a text was written for are read from it.** -/
theorem unescape_writes {plain : Char → Bool} {cs : List Char} {bytes : Bytes}
    (h : Writes plain cs bytes) : unescape (cs.flatMap String.utf8EncodeChar) = bytes := by
  induction h with
  | nil => rfl
  | @letter c cs bytes hc hpercent h ih =>
    rw [List.flatMap_cons]
    by_cases hsign : c = '%'
    · subst hsign
      have hself : String.utf8EncodeChar '%' = [37] := by decide
      rw [hself, List.singleton_append, unescape_percent, ih, List.singleton_append]
      intro high low tail heq
      have hno := hpercent rfl
      cases hhigh : hexOf high with
      | none => exact Or.inl rfl
      | some m =>
        cases hlow : hexOf low with
        | none => exact Or.inr rfl
        | some n =>
          obtain ⟨c, ds, rfl, hc', hds⟩ := flatMap_eq_cons (hexOf_lt hhigh).1 heq
          obtain ⟨d, es, rfl, hd', -⟩ := flatMap_eq_cons (hexOf_lt hlow).1 hds
          rw [beginsHex, hexDigit_of_byte hc' hhigh, hexDigit_of_byte hd' hlow] at hno
          cases hno
    · have hnot : 37 ∉ String.utf8EncodeChar c := by
        intro hmem
        have hnat : c.toNat = 37 := low_mem_utf8EncodeChar (by decide) hmem
        exact hsign (Char.ext (UInt32.toNat_inj.mp hnat))
      rw [unescape_append hnot, ih]
  | @escape c d high low cs bytes hc hd h ih =>
    obtain ⟨hcascii, hchex⟩ := hexDigit_ascii hc
    obtain ⟨hdascii, hdhex⟩ := hexDigit_ascii hd
    have hself : String.utf8EncodeChar '%' = [37] := by decide
    rw [List.flatMap_cons, List.flatMap_cons, List.flatMap_cons, hself, utf8EncodeChar_ascii hcascii,
      utf8EncodeChar_ascii hdascii]
    exact (unescape_escape hchex hdhex _).trans (congrArg _ ih)

theorem utf8_ofList (cs : List Char) :
    utf8 (String.ofList cs) = cs.flatMap String.utf8EncodeChar := by
  rw [utf8_eq_flatMap, String.toList_ofList]

/-- A text without a percent sign is what it was written for. -/
theorem writes_verbatim {plain : Char → Bool} {cs : List Char} {bytes : Bytes}
    (h : Writes plain cs bytes) (hno : '%' ∉ cs) : cs.flatMap String.utf8EncodeChar = bytes := by
  induction h with
  | nil => rfl
  | letter hc hpercent h ih =>
    rw [List.flatMap_cons, ih fun hmem => hno (List.mem_cons_of_mem _ hmem)]
  | escape hc hd h ih => exact absurd List.mem_cons_self hno

/-- **What was written for a text is read as that text.** -/
theorem percentDecode_writes {plain : Char → Bool} {cs : List Char} {s : String}
    (h : Writes plain cs (utf8 s)) : percentDecode (String.ofList cs) = s := by
  rw [percentDecode, String.toList_ofList, utf8_ofList, unescape_writes h, decode_utf8,
    Option.getD_some]
  split_ifs with hmem
  · rfl
  · have hsame := writes_verbatim h hmem
    rw [← utf8_ofList] at hsame
    exact utf8_inj.mp hsame

/-- The characters of what is written. -/
theorem mem_of_writes {plain : Char → Bool} {cs : List Char} {bytes : Bytes}
    (h : Writes plain cs bytes) {c : Char} (hc : c ∈ cs) :
    plain c = true ∨ c = '%' ∨ (hexDigit c).isSome := by
  induction h with
  | nil => cases hc
  | letter hplain hpercent h ih =>
    rcases List.mem_cons.mp hc with rfl | hc
    · exact Or.inl hplain
    · exact ih hc
  | escape hhigh hlow h ih =>
    rcases List.mem_cons.mp hc with rfl | hc
    · exact Or.inr (Or.inl rfl)
    rcases List.mem_cons.mp hc with rfl | hc
    · exact Or.inr (Or.inr (by rw [hhigh]; rfl))
    rcases List.mem_cons.mp hc with rfl | hc
    · exact Or.inr (Or.inr (by rw [hlow]; rfl))
    · exact ih hc

/-! ## Userinfo -/

/-- What ends a component of the userinfo, an entry or a URL may not stand for itself. -/
def isPlain (ends : List Char) (c : Char) : Bool := !ends.contains c && !isWhitespace c

theorem isPlain_iff {ends : List Char} {c : Char} :
    isPlain ends c = true ↔ c ∉ ends ∧ isWhitespace c = false := by
  rw [isPlain, Bool.and_eq_true, Bool.not_eq_true', Bool.not_eq_true', List.contains_eq_mem,
    decide_eq_false_iff_not]

theorem isPlain_mono {ends ends' : List Char} (h : ends' ⊆ ends) {c : Char}
    (hc : isPlain ends c = true) : isPlain ends' c = true := by
  rw [isPlain_iff] at hc ⊢
  exact ⟨fun hmem => hc.1 (h hmem), hc.2⟩

def inUser : Char → Bool := isPlain [':', '/', ',']

def inPassword : Char → Bool := isPlain ['/', ',']

/-- A credential as userinfo. -/
inductive Carries : Credential → List Char → Prop
  | userPassword {user password : String} {us ps : List Char} (hu : Writes inUser us (utf8 user))
      (hp : Writes inPassword ps (utf8 password)) :
      Carries (.userPassword user password) (us ++ ':' :: ps)
  | token {token : String} {ts : List Char} (hne : token ≠ "") (ht : Writes inUser ts (utf8 token)) :
      Carries (.token token) ts

/-- Any text may be written with all bytes escaped that are no unreserved characters. -/
theorem writes_encoded (s : String) : Writes inUser (percentEncode (utf8 s)) (utf8 s) := by
  refine (writes_percentEncode (utf8 s)).mono fun c hc => ?_
  have hall : ∀ n : Fin 128, isUnreserved (Char.ofNat n) = true → inUser (Char.ofNat n) = true := by
    decide
  have hplain := hall ⟨c.toNat, isUnreserved_ascii hc⟩
  simp only [Char.ofNat_toNat] at hplain
  exact hplain hc

theorem percent_ne {p : Char → Bool} {cs : List Char} {bytes : Bytes} (h : Writes p cs bytes)
    {d : Char} (hp : p d = false) (hd : d ≠ '%') (hhex : hexDigit d = none) : d ∉ cs := by
  intro hmem
  rcases mem_of_writes h hmem with h | h | h
  · rw [hp] at h; cases h
  · exact hd h
  · rw [hhex] at h; cases h

theorem Carries.urlCredential {credential : Credential} {info : List Char}
    (h : Carries credential info) : urlCredential info = credential := by
  cases h with
  | @userPassword user password us ps hu hp =>
    have hcut : splitOnce ':' (us ++ ':' :: ps) = some (us, ps) :=
      splitOnce_eq_some.mpr ⟨rfl, percent_ne hu (by decide) (by decide) (by decide)⟩
    rw [Nats.urlCredential, hcut]
    simp only [percentDecode_writes hu, percentDecode_writes hp]
  | @token token _ hne ht =>
    have hno : ':' ∉ info := percent_ne ht (by decide) (by decide) (by decide)
    have hinfo : info ≠ [] := by
      rintro rfl
      have hempty : percentDecode (String.ofList []) = token := percentDecode_writes ht
      exact hne (hempty ▸ by decide)
    rw [Nats.urlCredential, splitOnce_eq_none.mpr hno]
    simp only [List.isEmpty_iff, hinfo, if_false, percentDecode_writes ht]

/-- A digit is plain everywhere. -/
theorem isPlain_of_hexDigit {c : Char} (h : (hexDigit c).isSome = true) : inPassword c = true := by
  have hall : ∀ n : Fin 128, (hexOf (UInt8.ofNat n)).isSome = true →
      inPassword (Char.ofNat n) = true := by decide
  obtain ⟨n, hn⟩ := Option.isSome_iff_exists.mp h
  obtain ⟨hlt, hhex⟩ := hexDigit_ascii hn
  have hc := hall ⟨c.toNat, hlt⟩ (by rw [hhex]; rfl)
  rwa [Char.ofNat_toNat] at hc

theorem inPassword_of_inUser {c : Char} (h : inUser c = true) : inPassword c = true :=
  isPlain_mono (List.subset_cons_self _ _) h

theorem plain_of_writes {p : Char → Bool} (hp : ∀ c, p c = true → inPassword c = true)
    {cs : List Char} {bytes : Bytes} (h : Writes p cs bytes) : ∀ c ∈ cs, inPassword c = true := by
  intro c hc
  rcases mem_of_writes h hc with h | rfl | h
  · exact hp c h
  · decide
  · exact isPlain_of_hexDigit h

theorem Carries.plain {credential : Credential} {info : List Char} (h : Carries credential info) :
    ∀ c ∈ info, inPassword c = true := by
  cases h with
  | userPassword hu hp =>
    rw [List.forall_mem_append, List.forall_mem_cons]
    exact ⟨plain_of_writes (fun c => inPassword_of_inUser) hu, by decide,
      plain_of_writes (fun c => id) hp⟩
  | token hne ht => exact plain_of_writes (fun c => inPassword_of_inUser) ht

theorem Carries.isNone {credential : Credential} {info : List Char} (h : Carries credential info) :
    credential.isNone = false := by
  cases h <;> rfl

/-! ## Servers -/

/-- A server of a cluster. -/
structure Server where
  scheme : List Char
  host : List Char
  scheme_plain : ∀ c ∈ scheme, isPlain [':', ','] c = true
  host_plain : ∀ c ∈ host, isPlain ['@', '/', ','] c = true
  host_ne : host ≠ []

namespace Server

variable (s : Server)

def address : String := String.ofList (s.scheme ++ "://".toList ++ s.host)

/-- The entry of the server with some userinfo. -/
def entry (info : List Char) : String :=
  String.ofList (s.scheme ++ "://".toList ++ (info ++ '@' :: s.host))

variable {s} {info : List Char} {credential : Credential}

theorem notMem_of_plain {ends cs : List Char} {c : Char} (h : ∀ d ∈ cs, isPlain ends d = true)
    (hc : c ∈ ends) : c ∉ cs := fun hmem => (isPlain_iff.mp (h c hmem)).1 hc

theorem splitFirst_scheme {scheme : List Char} (h : ':' ∉ scheme) (rest : List Char) :
    splitFirst "://".toList (scheme ++ "://".toList ++ rest) = some (scheme, rest) := by
  induction scheme with
  | nil =>
    change splitFirst "://".toList (':' :: '/' :: '/' :: rest) = _
    rw [splitFirst, if_pos (by simp)]
    rfl
  | cons c scheme ih =>
    rw [List.mem_cons, not_or] at h
    rw [List.cons_append, List.cons_append, splitFirst, if_neg, ih h.2]
    · rfl
    · intro hpre
      obtain ⟨hc, -⟩ := List.cons_prefix_cons.mp (List.isPrefixOf_iff_prefix.mp hpre)
      exact h.1 hc

theorem parts_entry (h : Carries credential info) : parts (s.entry info) =
    ⟨s.scheme ++ "://".toList, info ++ '@' :: s.host, []⟩ := by
  have hcolon : ':' ∉ s.scheme := notMem_of_plain s.scheme_plain (by decide)
  have hslash : ∀ c ∈ info ++ '@' :: s.host, (c ≠ '/' : Bool) = true := by
    intro c hc
    rw [decide_eq_true_eq]
    rintro rfl
    rcases List.mem_append.mp hc with hc | hc
    · exact (isPlain_iff.mp (h.plain '/' hc)).1 (by decide)
    rcases List.mem_cons.mp hc with hc | hc
    · exact absurd hc (by decide)
    · exact notMem_of_plain s.host_plain (by decide) hc
  have htail : ∀ c, ([] : List Char).head? = some c → (c ≠ '/' : Bool) = false := by simp
  have hparts := parts_of_cut (splitFirst_scheme hcolon (info ++ '@' :: s.host)) hslash htail
  rw [List.append_nil] at hparts
  exact hparts

theorem userinfo_entry (h : Carries credential info) :
    userinfo (s.entry info) = some (info, s.host) := by
  rw [userinfo, parts_entry h]
  exact splitLast_eq_some.mpr ⟨rfl, notMem_of_plain s.host_plain (by decide)⟩

theorem refused_entry (h : Carries credential info) : refused (s.entry info) = false := by
  rw [refused, not_isEmpty_of_userinfo (userinfo_entry h), userinfo_entry h, parts_entry h]
  simp [s.host_ne]

theorem clean_entry (h : Carries credential info) : clean (s.entry info) = s.address := by
  rw [clean, userinfo_entry h, parts_entry h]
  simp only [List.append_nil, address]

theorem carried_entry (h : Carries credential info) : carried (s.entry info) = credential := by
  rw [carried, userinfo_entry h]
  exact h.urlCredential

/-- An entry has no comma and no white space. -/
theorem entry_plain (h : Carries credential info) :
    ∀ c ∈ (s.entry info).toList, isPlain [','] c = true := by
  have hmark : ∀ c ∈ "://".toList, isPlain [','] c = true := List.all_eq_true.mp (by decide)
  rw [entry, String.toList_ofList, List.forall_mem_append, List.forall_mem_append,
    List.forall_mem_append, List.forall_mem_cons]
  exact ⟨⟨fun c hc => isPlain_mono (by simp) (s.scheme_plain c hc), hmark⟩,
    fun c hc => isPlain_mono (by simp) (h.plain c hc), by decide,
    fun c hc => isPlain_mono (by simp) (s.host_plain c hc)⟩

end Server

/-- A cluster URL. -/
def clusterUrl (entries : List String) : String :=
  String.ofList ([','].intercalate (entries.map String.toList))

/-- Entries that all carry one credential. -/
theorem foldlM_addEntry {es : List String} {credential : Credential}
    (h : ∀ e ∈ es, refused e = false ∧ carried e = credential) (found : List String × Credential)
    (hfound : found.2 = .none ∨ found.2 = credential) : es.foldlM addEntry found =
      .ok (found.1 ++ es.map clean, if es.isEmpty then found.2 else credential) := by
  induction es generalizing found with
  | nil =>
    rw [List.map_nil, List.append_nil]
    rfl
  | cons e es ih =>
    rw [List.forall_mem_cons] at h
    obtain ⟨⟨hrefused, hcarried⟩, hes⟩ := h
    have hnext : (if found.2.isNone then carried e else found.2) = credential := by
      rcases hfound with hnone | hsame
      · rw [hnone, hcarried]
        rfl
      · rw [hsame, hcarried, ite_self]
    rw [List.foldlM_cons, addEntry_of_not_refused hrefused, hnext]
    change es.foldlM addEntry (found.1 ++ [clean e], credential) = _
    rw [ih hes _ (Or.inr rfl), List.append_assoc, ite_self]
    rfl

/-- **A credential in a URL is read as it is**: whatever it is made of, written with escapes for each of
the servers, and the addresses are those without it. -/
theorem resolve_credentials (read : String → Except String String) {env : EnvCredentials}
    (henv : env.isEmpty = true) {credential : Credential} (servers : List (Server × List Char))
    (hne : servers ≠ []) (h : ∀ s ∈ servers, Carries credential s.2) :
    resolve read (clusterUrl (servers.map fun s => s.1.entry s.2)) env =
      .ok ⟨servers.map fun s => s.1.address, credential, true⟩ := by
  have hmem : ∀ e ∈ servers.map (fun s => s.1.entry s.2), ∃ s ∈ servers, s.1.entry s.2 = e :=
    fun e he => List.mem_map.mp he
  have hentries : entries (clusterUrl (servers.map fun s => s.1.entry s.2)) =
      servers.map fun s => s.1.entry s.2 := by
    refine entries_intercalate (by simpa using hne) fun e he => ?_
    obtain ⟨s, hs, rfl⟩ := hmem e he
    have hplain : ∀ c ∈ (s.1.entry s.2).toList, isPlain [','] c = true :=
      Server.entry_plain (h s hs)
    exact ⟨Server.notMem_of_plain hplain (List.mem_singleton_self _),
      fun c hc => (isPlain_iff.mp (hplain c (List.mem_of_head? hc))).2,
      fun c hc => (isPlain_iff.mp (hplain c (List.mem_of_getLast? hc))).2⟩
  have hblank : ¬ (trim (clusterUrl (servers.map fun s => s.1.entry s.2))).isEmpty = true := by
    rw [← entries_eq_singleton, hentries]
    intro hone
    obtain ⟨s, hs, hempty⟩ := hmem "" (by rw [hone]; exact List.mem_singleton_self _)
    have hnot : (s.1.entry s.2).isEmpty = false :=
      not_isEmpty_of_userinfo (Server.userinfo_entry (h s hs))
    rw [hempty] at hnot
    cases hnot
  have hcarried : ∀ e ∈ servers.map (fun s => s.1.entry s.2),
      refused e = false ∧ carried e = credential := by
    intro e he
    obtain ⟨s, hs, rfl⟩ := hmem e he
    exact ⟨Server.refused_entry (h s hs), Server.carried_entry (h s hs)⟩
  have hclean : (servers.map fun s => s.1.entry s.2).map clean =
      servers.map fun s => s.1.address := by
    rw [List.map_map]
    exact List.map_congr_left fun s hs => Server.clean_entry (h s hs)
  obtain ⟨s, hs⟩ := List.exists_mem_of_ne_nil servers hne
  have hnone : credential.isNone = false := (h s hs).isNone
  rw [resolve, if_neg hblank, hentries, foldlM_addEntry hcarried _ (Or.inl rfl), hclean,
    EnvCredentials.resolve, if_pos henv, if_neg (by simpa using hne)]
  change Except.ok _ = _
  rw [hnone]
  rfl

/-- The name encoded, the password with raw signs, and two servers. -/
theorem cluster_resolved :
    clusterUrl ["nats://al%40ice:%@x@a:4222", "tls://al%40ice:%@x@[::1]:1"] =
      "nats://al%40ice:%@x@a:4222,tls://al%40ice:%@x@[::1]:1" ∧
    resolve noFiles (clusterUrl ["nats://al%40ice:%@x@a:4222", "tls://al%40ice:%@x@[::1]:1"]) .unset =
      .ok ⟨["nats://a:4222", "tls://[::1]:1"], .userPassword "al@ice" "%@x", true⟩ := by
  have huser : Writes inUser "al%40ice".toList (utf8 "al@ice") := by
    have hencoded := writes_encoded "al@ice"
    have htext : percentEncode (utf8 "al@ice") = "al%40ice".toList := by
      rw [utf8_eq_flatMap]
      decide
    rw [← htext]
    exact hencoded
  have hpassword : Writes inPassword "%@x".toList (utf8 "%@x") := by
    have hrest : Writes inPassword ['@', 'x'] (['@', 'x'].flatMap String.utf8EncodeChar) :=
      writes_self (List.all_eq_true.mp (by decide)) (by decide)
    rw [utf8_eq_flatMap]
    exact .letter (by decide) (fun _ => by decide) hrest
  have hcarries : Carries (.userPassword "al@ice" "%@x") "al%40ice:%@x".toList :=
    .userPassword huser hpassword
  let a : Server := ⟨"nats".toList, "a:4222".toList, List.all_eq_true.mp (by decide),
    List.all_eq_true.mp (by decide), by decide⟩
  let b : Server := ⟨"tls".toList, "[::1]:1".toList, List.all_eq_true.mp (by decide),
    List.all_eq_true.mp (by decide), by decide⟩
  refine ⟨by decide, ?_⟩
  exact resolve_credentials noFiles rfl
    [(a, "al%40ice:%@x".toList), (b, "al%40ice:%@x".toList)] (by simp) (by simpa using hcarries)

end HeyoCi.Nats
