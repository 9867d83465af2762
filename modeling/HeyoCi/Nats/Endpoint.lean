import HeyoCi.Ids.Mint
import HeyoCi.Image.Context

/-!
# The NATS endpoint

* `Text.splitFirst`, `Text.debugIn`: a text cut at a pattern, and a text as `{:?}` prints it;
* `Credential`, `EnvCredentials`, `NatsAuthError`, `NatsEndpoint`: the values;
* `percentDecode`, `splitUserinfo`: an entry of the URL and the credential in it;
* `EnvCredentials.resolve`, `resolve`: the URL and the environment as one endpoint;
* `NatsAuthError.display`, `NatsEndpoint.redacted`, `NatsEndpoint.debug`, `printed`: what is shown.
-/

namespace HeyoCi

namespace Text

/-- What is before and after the first occurrence of a pattern that is not empty. -/
def splitFirst (pat : List Char) : List Char → Option (List Char × List Char)
  | [] => none
  | c :: cs => if pat.isPrefixOf (c :: cs) then some ([], (c :: cs).drop pat.length)
    else (splitFirst pat cs).map fun (before, after) => (c :: before, after)

section Debug

variable (plain : Char → Bool)

/-- `char::escape_debug`, where `plain` are the characters that are printed as they are. -/
def escapeIn (c : Char) : List Char :=
  if escapeDebug c ≠ [c] then escapeDebug c
  else if plain c then [c]
  else ['\\', 'u', '\x7b'] ++ Nat.toDigits 16 c.toNat ++ ['\x7d']

/-- A string as `{:?}` prints it, with the characters that are not printable. -/
def debugIn (s : String) : String := String.ofList ('"' :: s.toList.flatMap (escapeIn plain) ++ ['"'])

end Debug

end Text

namespace Nats

open Text

/-! ## Values -/

inductive Credential where
  | none
  | token (token : String)
  | userPassword (user password : String)
  | creds (contents : String)
  | nkeySeed (seed : String)
  deriving Repr, DecidableEq

namespace Credential

def kind : Credential → String
  | none => "none"
  | token _ => "token"
  | userPassword _ _ => "user/password"
  | creds _ => "creds file"
  | nkeySeed _ => "nkey seed"

def isNone : Credential → Bool
  | none => true
  | _ => false

end Credential

/-- Credentials supplied as discrete env vars, before validation. -/
structure EnvCredentials where
  user : Option String
  password : Option String
  token : Option String
  credsFile : Option String
  nkeySeed : Option String
  deriving Repr, DecidableEq

inductive NatsAuthError where
  | emptyUrl
  | emptyServer
  | malformedServer (entry : String)
  | conflictingCredentials (first second : String)
  | userWithoutPassword
  | passwordWithoutUser
  | credsFileUnreadable (path reason : String)
  | invalidCreds (reason : String)
  deriving Repr, DecidableEq

structure NatsEndpoint where
  servers : List String
  credential : Credential
  credentialFromUrl : Bool
  deriving Repr, DecidableEq

/-! ## Userinfo -/

/-- `to_digit(16)` of a byte. -/
def hexOf (b : UInt8) : Option Nat :=
  let n := b.toNat
  if 48 ≤ n ∧ n ≤ 57 then some (n - 48)
  else if 97 ≤ n ∧ n ≤ 102 then some (n - 87)
  else if 65 ≤ n ∧ n ≤ 70 then some (n - 55)
  else none

/-- The bytes of a component, with its escapes replaced. -/
def unescape : Bytes → Bytes
  | [] => []
  | b :: rest => match b, rest with
    | 37, high :: low :: tail => match hexOf high, hexOf low with
      | some high, some low => UInt8.ofNat (high * 16 + low) :: unescape tail
      | _, _ => 37 :: unescape (high :: low :: tail)
    | b, rest => b :: unescape rest

/-- `percent_decode`: what is not UTF-8 afterwards stays as it was. -/
def percentDecode (s : String) : String :=
  if '%' ∈ s.toList then (decode (unescape (utf8 s))).getD s else s

example : percentDecode "hunter%3A2" = "hunter:2" ∧ percentDecode "100%" = "100%" := by decide +kernel

/-- The credential that a userinfo encodes. -/
def urlCredential (userinfo : List Char) : Credential := match splitOnce ':' userinfo with
  | some (user, password) =>
    .userPassword (percentDecode (String.ofList user)) (percentDecode (String.ofList password))
  | none => if userinfo.isEmpty then .none else .token (percentDecode (String.ofList userinfo))

/-- `split_userinfo`: an address without userinfo, and the credential that was in it. -/
def splitUserinfo (entry : String) : Except NatsAuthError (String × Credential) :=
  match splitFirst "://".toList entry.toList with
  | none => if '@' ∈ entry.toList then .error (.malformedServer entry) else .ok (entry, .none)
  | some (scheme, rest) =>
    let authority := rest.takeWhile (· ≠ '/')
    match splitLast ['@'] authority with
    | none => .ok (entry, .none)
    | some (userinfo, host) =>
      if host.isEmpty then .error (.malformedServer entry)
      else .ok (String.ofList (scheme ++ "://".toList ++ host ++ rest.dropWhile (· ≠ '/')),
        urlCredential userinfo)

/-! ## Resolution -/

namespace EnvCredentials

variable (env : EnvCredentials)

def isEmpty : Bool := env.user.isNone && env.password.isNone && env.token.isNone &&
  env.credsFile.isNone && env.nkeySeed.isNone

/-- Take one more credential, where none has been found. -/
def claim (c : Credential) : Option Credential → Except NatsAuthError (Option Credential)
  | some existing => .error (.conflictingCredentials existing.kind c.kind)
  | none => .ok (some c)

/-- The env vars as at most one credential; `read` reads a file, or says why it cannot. -/
def resolve (read : String → Except String String) : Except NatsAuthError Credential :=
  if env.isEmpty then .ok .none
  else do
    let found ← match env.credsFile with
      | some path => match read path with
        | .ok contents => claim (.creds contents) none
        | .error reason => .error (.credsFileUnreadable path reason)
      | none => .ok none
    let found ← match env.nkeySeed with
      | some seed => claim (.nkeySeed seed) found
      | none => .ok found
    let found ← match env.user, env.password with
      | some user, some password => claim (.userPassword user password) found
      | some _, none => .error .userWithoutPassword
      | none, some _ => .error .passwordWithoutUser
      | none, none => .ok found
    let found ← match env.token with
      | some token => claim (.token token) found
      | none => .ok found
    return found.getD .none

end EnvCredentials

/-- The entries of a cluster URL. -/
def entries (url : String) : List String :=
  ((trim url).toList.splitOn ',').map fun raw => trim (String.ofList raw)

/-- One more entry: its address, and its credential if none has been found. -/
def addEntry (found : List String × Credential) (entry : String) :
    Except NatsAuthError (List String × Credential) :=
  if entry.isEmpty then .error .emptyServer
  else (splitUserinfo entry).map fun (clean, credential) =>
    (found.1 ++ [clean], if found.2.isNone then credential else found.2)

/-- `NatsEndpoint::resolve`. -/
def resolve (read : String → Except String String) (url : String) (env : EnvCredentials) :
    Except NatsAuthError NatsEndpoint :=
  if (trim url).isEmpty then .error .emptyUrl
  else do
    let (servers, urlCredential) ← (entries url).foldlM addEntry ([], .none)
    let envCredential ← env.resolve read
    return {
      servers := servers
      credential := if envCredential.isNone then urlCredential else envCredential
      credentialFromUrl := envCredential.isNone && !urlCredential.isNone }

/-! ## What is shown -/

section Shown

variable (plain : Char → Bool)

/-- `Display` of an error. -/
def NatsAuthError.display : NatsAuthError → String
  | emptyUrl => "the NATS URL is empty; set CI_NATS_URL"
  | emptyServer => "the NATS URL has an empty entry: a comma-separated cluster URL " ++
      "must not have a trailing or doubled comma"
  | malformedServer entry => "could not parse the NATS server address " ++ debugIn plain entry
  | conflictingCredentials first second =>
      s!"conflicting NATS credentials: {first} and {second} are both set, " ++
      "and there is no order of precedence between them that is not a guess — set exactly one"
  | userWithoutPassword => "CI_NATS_USER is set without CI_NATS_PASSWORD; for token auth " ++
      "use CI_NATS_TOKEN instead"
  | passwordWithoutUser => "CI_NATS_PASSWORD is set without CI_NATS_USER"
  | credsFileUnreadable path reason =>
      "could not read the NATS creds file " ++ debugIn plain path ++ ": " ++ reason
  | invalidCreds reason => s!"the NATS creds file is not a valid JWT + nkey pair: {reason}"

/-- The sanitized servers, comma-joined. -/
def NatsEndpoint.redacted (e : NatsEndpoint) : String := ",".intercalate e.servers

/-- `Debug` of an endpoint. -/
def NatsEndpoint.debug (e : NatsEndpoint) : String :=
  "NatsEndpoint \x7b servers: [" ++ join (e.servers.map (debugIn plain)) ++ "], credential: " ++
    debugIn plain e.credential.kind ++ " \x7d"

/-- The ways to print an endpoint, or the error in its place. -/
inductive Printout where
  | servers
  | redacted
  | debug
  | display
  deriving Repr, DecidableEq

/-- All that can be printed. -/
def printed : Except NatsAuthError NatsEndpoint → List (Printout × String)
  | .ok e => e.servers.map (Prod.mk .servers) ++ [(.redacted, e.redacted), (.debug, e.debug plain)]
  | .error err => [(.display, err.display plain)]

end Shown

end Nats

end HeyoCi
