import HeyoCi.Expr.Values
import HeyoCi.Image.Hashes
import HeyoCi.Submit.Tokens

/-!
# Tokens of log streams

A page that shows a job mints a token for the stream of its logs: the second it expires in, and a MAC of
that and of the job under a key of the process.

* `HostString`, `Clock`: strings and times of the host, which its words hold;
* `signed`: what is signed; **`signed_inj`**: it says the second, the run and the job;
* `sign`, `mint`, `verify`: a token is made and checked; `streamGate`: the route;
* `Minting`, `IdealMac`: the tokens a process has minted, and what a MAC keeps;
* `minted_of_streamGate`: what the route admits;
* **`verify_scoped`**: a token that is accepted is for a job and a time that one was minted for, and the
  tokens that were minted are accepted until they expire.
-/

namespace HeyoCi

namespace StreamToken

open Framing

/-- A string of the host, whose length is a `usize`. -/
abbrev HostString := {s : String // (utf8 s).length < 2 ^ 64}

/-- The seconds since 1970, of a clock that counts them in 63 bits. -/
abbrev Clock := {secs : Nat // secs < 2 ^ 63}

def tokenTtlSecs : Nat := 60 * 60

/-! ## What is signed -/

/-- The bytes that `sign` takes the MAC of. -/
def signed (expiry : Nat) (runId jobKey : String) : Bytes :=
  bigEndian 8 expiry ++ (bigEndian 8 (utf8 runId).length ++ utf8 runId) ++
    (bigEndian 8 (utf8 jobKey).length ++ utf8 jobKey)

/-- A text behind its length in 64 bits. -/
theorem framedOn_text :
    FramedOn {s : String | (utf8 s).length < 2 ^ 64} fun s => bigEndian 8 (utf8 s).length ++ utf8 s := by
  intro s hs t ht xs ys heq
  obtain ⟨htext, hrest⟩ := framedOn_sized (framedOn_bigEndian 8) _ hs _ ht xs ys heq
  exact ⟨utf8_inj.mp htext, hrest⟩

/-- **What is signed says the second, the run and the job.** -/
theorem signed_inj {expiry expiry' : Nat} {runId runId' jobKey jobKey' : HostString}
    (he : expiry < 2 ^ 64) (he' : expiry' < 2 ^ 64)
    (h : signed expiry runId jobKey = signed expiry' runId' jobKey') :
    expiry = expiry' ∧ runId = runId' ∧ jobKey = jobKey' := by
  have hmem : ∀ {n : Nat}, n < 2 ^ 64 → n ∈ {n : Nat | n < 256 ^ 8} := by
    intro n hn
    change n < 256 ^ 8
    omega
  rw [signed, signed, List.append_assoc, List.append_assoc] at h
  obtain ⟨hexpiry, hrest⟩ := framedOn_bigEndian 8 _ (hmem he) _ (hmem he') _ _ h
  obtain ⟨hrun, hjob⟩ := framedOn_text _ runId.prop _ runId'.prop _ _ hrest
  exact ⟨hexpiry, Subtype.ext hrun, Subtype.ext (framedOn_text.inj jobKey.prop jobKey'.prop hjob)⟩

/-! ## The token -/

section Token

-- HMAC-SHA256, of a key and a message
variable (mac : Vector UInt8 32 → Bytes → Bytes) (key : Vector UInt8 32)

def sign (expiry : Nat) (runId jobKey : String) : String := hex (mac key (signed expiry runId jobKey))

/-- Mint a token for the log stream of a job. -/
def mint (now : Nat) (runId jobKey : String) : String :=
  let expiry := now + tokenTtlSecs
  s!"{expiry}.{sign mac key expiry runId jobKey}"

/-- Check a token against the job it claims to be for. -/
def verify (now : Nat) (token runId jobKey : String) : Bool :=
  match Text.splitOnce '.' token.toList with
  | none => false
  | some (expiryStr, provided) => match Expr.parseUsize (String.ofList expiryStr) with
    | none => false
    | some expiry =>
      if expiry < now then false
      else
        let expected := sign mac key expiry runId jobKey
        let provided := String.ofList provided
        provided.utf8ByteSize = expected.utf8ByteSize && provided = expected

/-- What `log_stream` checks first: the token of the query. -/
def streamGate (now : Nat) (query : String → Option String) (runId jobKey : String) :
    Except String Unit :=
  if verify mac key now ((query "token").getD "") runId jobKey then .ok ()
  else .error "this log stream token is missing, expired, or for another job"

end Token

/-! ## What a process has minted -/

/-- A call of `mint`. -/
structure Minting where
  now : Clock
  runId : HostString
  jobKey : HostString

namespace Minting

variable (m : Minting)

def expiry : Nat := m.now + tokenTtlSecs

def message : Bytes := signed m.expiry m.runId m.jobKey

def token (mac : Vector UInt8 32 → Bytes → Bytes) (key : Vector UInt8 32) : String :=
  mint mac key m.now m.runId m.jobKey

theorem expiry_lt : m.expiry < 2 ^ 64 := by
  have hnow := m.now.prop
  rw [expiry, tokenTtlSecs]
  omega

end Minting

/-- The second that a token carries. -/
def expiryOf (token : String) : Option Nat :=
  (Text.splitOnce '.' token.toList).bind fun parts => Expr.parseUsize (String.ofList parts.1)

/-- The MAC that a token carries, as it is written. -/
def tagOf (token : String) : Option String :=
  (Text.splitOnce '.' token.toList).map fun parts => String.ofList parts.2

/-- **The MAC is ideal**: it is of one key and one message, and who presents a token knows the values
only of messages that were signed. -/
structure IdealMac (mac : Vector UInt8 32 → Bytes → Bytes) (key : Vector UInt8 32)
    (mints : List Minting) (token : String) : Prop where
  inj : ∀ k k' x x', mac k x = mac k' x' → k = k' ∧ x = x'
  known : ∀ x, tagOf token = some (hex (mac key x)) → ∃ m ∈ mints, mac key m.message = mac key x

section Verify

variable {mac : Vector UInt8 32 → Bytes → Bytes} {key : Vector UInt8 32}

theorem parseUsize_repr {n : Nat} (h : n < 2 ^ 64) : Expr.parseUsize n.repr = some n := by
  have hdigits : ∀ c ∈ Nat.toDigits 10 n, c.isDigit = true := fun c hc =>
    Nat.isDigit_of_mem_toDigits (by omega) (by omega) hc
  have hvalue : (Nat.toDigits 10 n).foldl (fun n c => 10 * n + (c.toNat - '0'.toNat)) 0 = n := by
    rw [← Nat.ofDigitChars_eq_foldl, Nat.ofDigitChars_ten_toDigits]
  rw [Expr.parseUsize, Nat.toList_repr]
  split
  · rename_i cs heq
    exact absurd (hdigits '+' (heq ▸ List.mem_cons_self)) (by decide)
  · simp only [hvalue]
    rw [if_neg, if_pos (by omega)]
    simp [Nat.toDigits_ne_nil, List.all_eq_true.mpr hdigits]

/-- What an accepted token says. -/
theorem verify_eq_true {now : Nat} {token runId jobKey : String} :
    verify mac key now token runId jobKey = true ↔ ∃ expiry, expiryOf token = some expiry ∧
      now ≤ expiry ∧ tagOf token = some (sign mac key expiry runId jobKey) := by
  rw [verify, expiryOf, tagOf]
  cases Text.splitOnce '.' token.toList with
  | none => simp
  | some parts =>
    obtain ⟨expiryStr, provided⟩ := parts
    simp only [Option.bind_some, Option.map_some]
    cases Expr.parseUsize (String.ofList expiryStr) with
    | none => simp
    | some expiry =>
      simp only [Option.some.injEq, exists_eq_left']
      by_cases hlate : expiry < now
      · rw [if_pos hlate]
        exact iff_of_false Bool.false_ne_true fun h => absurd h.1 (by omega)
      · rw [if_neg hlate, Bool.and_eq_true, decide_eq_true_eq, decide_eq_true_eq]
        constructor
        · rintro ⟨-, heq⟩
          exact ⟨by omega, heq⟩
        · rintro ⟨-, heq⟩
          exact ⟨by rw [heq], heq⟩

/-- How a minted token is read. -/
theorem splitOnce_token (m : Minting) : Text.splitOnce '.' (m.token mac key).toList =
    some (m.expiry.repr.toList, (sign mac key m.expiry m.runId m.jobKey).toList) := by
  refine Text.splitOnce_eq_some.mpr ⟨?_, fun hdot => ?_⟩
  · simp [Minting.token, mint, Minting.expiry, toString]
  · rw [Nat.toList_repr] at hdot
    exact absurd (Nat.isDigit_of_mem_toDigits (by omega) (by omega) hdot) (by decide)

theorem expiryOf_token (m : Minting) : expiryOf (m.token mac key) = some m.expiry := by
  rw [expiryOf, splitOnce_token, Option.bind_some, String.ofList_toList, parseUsize_repr m.expiry_lt]

theorem tagOf_token (m : Minting) :
    tagOf (m.token mac key) = some (sign mac key m.expiry m.runId m.jobKey) := by
  rw [tagOf, splitOnce_token, Option.map_some, String.ofList_toList]

/-- The seconds that are read have 64 bits. -/
theorem expiryOf_lt {token : String} {expiry : Nat} (h : expiryOf token = some expiry) :
    expiry < 2 ^ 64 := by
  obtain ⟨parts, -, hparse⟩ := Option.bind_eq_some_iff.mp h
  rw [Expr.parseUsize] at hparse
  simp only at hparse
  split_ifs at hparse with hdigits hlt
  exact Option.some.inj hparse ▸ hlt

variable {mints : List Minting} {token : String} {now : Clock} {runId jobKey : HostString}

/-- A token that is accepted was minted for the run and the job, with the second it carries. -/
theorem minted_of_verify (h : IdealMac mac key mints token)
    (hverify : verify mac key now token runId jobKey = true) : ∃ m ∈ mints, m.runId = runId ∧
      m.jobKey = jobKey ∧ expiryOf token = some m.expiry ∧ now ≤ m.expiry := by
  obtain ⟨expiry, hexpiry, hnow, htag⟩ := verify_eq_true.mp hverify
  obtain ⟨m, hm, hmac⟩ := h.known _ htag
  obtain ⟨heq, hrun, hjob⟩ := signed_inj m.expiry_lt (expiryOf_lt hexpiry) (h.inj _ _ _ _ hmac).2
  exact ⟨m, hm, hrun, hjob, heq ▸ hexpiry, heq ▸ hnow⟩

/-- The route streams the logs of a job only where its token was minted. -/
theorem minted_of_streamGate {query : String → Option String}
    (h : IdealMac mac key mints ((query "token").getD ""))
    (hgate : streamGate mac key now query runId jobKey = .ok ()) :
    ∃ m ∈ mints, m.runId = runId ∧ m.jobKey = jobKey ∧ now ≤ m.expiry := by
  rw [streamGate] at hgate
  split_ifs at hgate with hverify
  obtain ⟨m, hm, hrun, hjob, -, hnow⟩ := minted_of_verify h hverify
  exact ⟨m, hm, hrun, hjob, hnow⟩

/-- **A token opens the stream of one job until it expires**: one that is accepted was minted for that
very run and job, with the second it carries, which is not over; and one that was minted is accepted
until then. -/
theorem verify_scoped (h : IdealMac mac key mints token) (now : Clock) (runId jobKey : HostString) :
    (verify mac key now token runId jobKey = true → ∃ m ∈ mints, m.runId = runId ∧
      m.jobKey = jobKey ∧ expiryOf token = some m.expiry ∧ now ≤ m.expiry) ∧
    ∀ m ∈ mints, now ≤ m.expiry → verify mac key now (m.token mac key) m.runId m.jobKey = true := by
  refine ⟨minted_of_verify h, fun m _ hnow => ?_⟩
  exact verify_eq_true.mpr ⟨m.expiry, expiryOf_token m, hnow, tagOf_token m⟩

end Verify

section Sample

/-- The bytes from 0 to 31. -/
def sampleKey : Vector UInt8 32 := Vector.ofFn fun i => UInt8.ofNat i

def sampleMinting : Minting where
  now := ⟨1760000000, by decide⟩
  runId := ⟨"018bcfe56800-00000000", by decide +kernel⟩
  jobKey := ⟨"build", by decide +kernel⟩

/-- The HMAC-SHA256 of that. -/
def sampleTag : Bytes :=
    [71, 87, 23, 70, 255, 197, 165, 177, 89, 132, 75, 40, 210, 108, 48, 251, 224, 242, 173, 27,
    24, 120, 39, 118, 120, 21, 67, 40, 52, 72, 57, 6]

/-- An injective function with that value. -/
def sampleMac (key : Vector UInt8 32) (x : Bytes) : Bytes :=
  if key = sampleKey ∧ x = sampleMinting.message then sampleTag
  else List.replicate 40 0 ++ (key.toList ++ x)

theorem sampleMac_inj {k k' : Vector UInt8 32} {x x' : Bytes} (h : sampleMac k x = sampleMac k' x') :
    k = k' ∧ x = x' := by
  have hlen : sampleTag.length = 32 := rfl
  unfold sampleMac at h
  split_ifs at h with hs hs'
  · exact ⟨hs.1.trans hs'.1.symm, hs.2.trans hs'.2.symm⟩
  · have hlength := congrArg List.length h
    rw [hlen, List.length_append, List.length_replicate] at hlength
    omega
  · have hlength := congrArg List.length h
    rw [hlen, List.length_append, List.length_replicate] at hlength
    omega
  · obtain ⟨hkey, hx⟩ := List.append_inj (List.append_cancel_left h) (by simp)
    exact ⟨Vector.toList_inj.mp hkey, hx⟩

/-- A page opens the stream it has minted a token for. -/
theorem build_stream_opens : verify sampleMac sampleKey 1760000000
    (sampleMinting.token sampleMac sampleKey) "018bcfe56800-00000000" "build" = true := by
  have hideal : IdealMac sampleMac sampleKey [sampleMinting]
      (sampleMinting.token sampleMac sampleKey) := by
    refine ⟨fun _ _ _ _ => sampleMac_inj, fun x hx => ⟨sampleMinting, List.mem_cons_self, ?_⟩⟩
    rw [tagOf_token, Option.some.injEq] at hx
    exact hex_inj hx
  exact (verify_scoped hideal sampleMinting.now sampleMinting.runId sampleMinting.jobKey).2 sampleMinting
    List.mem_cons_self (Nat.le_add_right _ _)

end Sample

end StreamToken

end HeyoCi
