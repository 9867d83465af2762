import HeyoCi.Lib.JsonText
import HeyoCi.Submit.Handover
import HeyoCi.Submit.Scope
import HeyoCi.Submit.Tokens
import Mathlib.Data.List.DropRight

/-!
# What the client sends is what the server reads

`git submit` writes its payload by hand where there is no `jq`: with `printf`, and with `sed` for the
texts that may hold anything. The server reads it as JSON.

* `Sending`, `esc`, `Sending.payload`, `Sending.headers`: the client;
* `SubmitBody`, `decodeBody`, `verifySignature`: the server;
* `Sending.body`: what is meant by a payload; `payload_eq`, `decodeBody_payload`;
* **`submit_received`**: a payload is accepted with the credential it is sent with, and read as it is
  meant, or refused as no JSON.
-/

namespace HeyoCi

open JsonText

/-! ## The client -/

/-- A name that `git rev-parse` prints. -/
abbrev ObjectName := { name : String // name.toList.all isHexDigit = true }

/-- What the client knows of the repository and of what it was told to send. -/
structure Sending where
  repoName : String
  repoUrl : String
  defaultBranch : String
  /-- What `git rev-parse --abbrev-ref HEAD` says. -/
  abbrevRef : String
  before : Option ObjectName
  sha : ObjectName
  dirty : Bool
  pusherName : String
  pusherEmail : String
  workflow : String
  format : SourceFormat
  content : Bytes

/-- `s/\\/\\\\/g`, and then `s/"/\\"/g`. -/
def sedEscape (cs : List Char) : List Char :=
  (cs.flatMap fun c => if c = '\\' then ['\\', '\\'] else [c]).flatMap fun c =>
    if c = '"' then ['\\', '"'] else [c]

/-- What `$(...)` leaves of an output. -/
def substituted (cs : List Char) : List Char := cs.rdropWhile (· = '\n')

/-- `$(esc "$s")`. -/
def esc (s : String) : List Char := substituted (sedEscape s.toList)

/-- A text in quotes, or `null` where there is none. -/
def quotedOrNull (s : String) : List Char :=
  if s = "" then "null".toList else '"' :: (esc s ++ ['"'])

namespace Sending

variable (s : Sending)

def branch : String := if s.abbrevRef = "HEAD" then "detached" else s.abbrevRef

def after : String := if s.dirty then s.sha.val ++ "-dirty" else s.sha.val

def beforeText : String := s.before.elim "" Subtype.val

/-! What one `printf` after the other prints of the payload. -/

def repositoryText : List Char :=
  "\x7b\"repository\":\x7b\"id\":\"".toList ++ (esc s.repoName ++ ("\",\"name\":\"".toList ++
    (esc s.repoName ++ ("\",\"url\":\"".toList ++ (esc s.repoUrl ++ ("\",\"defaultBranch\":".toList ++
    (quotedOrNull s.defaultBranch ++ "\x7d,".toList)))))))

def refText : List Char :=
  "\"ref\":\"refs/heads/".toList ++ (esc s.branch ++ ("\",\"before\":\"".toList ++
    (s.beforeText.toList ++ ("\",\"after\":\"".toList ++ (s.after.toList ++
    "\",\"dryRun\":false,".toList)))))

def pusherText : List Char :=
  "\"pusher\":\x7b\"name\":\"".toList ++ (esc s.pusherName ++ ("\",\"email\":\"".toList ++
    (esc s.pusherEmail ++ "\"\x7d,".toList)))

def workflowText : List Char := "\"workflowId\":".toList ++ (quotedOrNull s.workflow ++ ",".toList)

def sourceText : List Char :=
  "\"source\":\x7b\"format\":\"".toList ++ (s.format.asStr.toList ++
    ("\",\"contentBase64\":\"".toList ++ (Base64.encode s.content ++ "\"\x7d\x7d".toList)))

def payload : List Char :=
  s.repositoryText ++ (s.refText ++ (s.pusherText ++ (s.workflowText ++ s.sourceText)))

end Sending

/-- What the client has to prove itself with. -/
inductive Secret where
  | token (text : String)
  | shared (secret : String)

/-- A quoted value of a curl configuration: what a backslash stands before, and the rest. -/
def curlQuoted : List Char → List Char
  | [] => []
  | '"' :: _ => []
  | '\\' :: 't' :: rest => '\t' :: curlQuoted rest
  | '\\' :: 'n' :: rest => '\n' :: curlQuoted rest
  | '\\' :: 'r' :: rest => '\r' :: curlQuoted rest
  | '\\' :: 'v' :: rest => '\x0b' :: curlQuoted rest
  | '\\' :: c :: rest => c :: curlQuoted rest
  | c :: rest => c :: curlQuoted rest

/-- The headers of the request: one of them is in the configuration of curl. -/
def Secret.headers (hmac : Bytes → Bytes → Bytes) (payload : String) : Secret → Headers
  | token text => ⟨some (String.ofList (curlQuoted ("Bearer ".toList ++ text.toList ++ ['"']))), none⟩
  | shared secret => ⟨none, some (String.ofList (curlQuoted ("sha256=".toList ++
      (hex (hmac (utf8 secret) (utf8 payload))).toList ++ ['"'])))⟩

/-! ## The server -/

structure RepositoryRef where
  id : String
  name : String
  url : String
  defaultBranch : Option String
  deriving Repr, DecidableEq

structure GitIdentity where
  name : Option String
  email : Option String
  deriving Repr, DecidableEq

/-- The payload of `git submit`, with all its fields. -/
structure SubmitBody where
  repository : RepositoryRef
  ref : String
  before : String
  after : String
  dryRun : Bool
  pusher : Option GitIdentity
  workflowId : Option String
  source : SourceArchive
  deriving Repr, DecidableEq

/-- What the handler and the dispatcher use of it. -/
def SubmitBody.request (b : SubmitBody) : SubmitRequest where
  repositoryUrl := b.repository.url
  repositoryName := b.repository.name
  gitRef := b.ref
  before := b.before
  after := b.after
  workflowId := b.workflowId

namespace Decode

abbrev Members := List (String × Value)

def members : Value → Option Members
  | .obj ms => some ms
  | _ => none

/-- A field that is there once, or not at all: two of one name are refused. -/
def field (ms : Members) (name : String) : Option (Option Value) :=
  match ms.filter fun m => m.1 = name with
  | [] => some none
  | [m] => some (some m.2)
  | _ => none

def string : Value → Option String
  | .str s => some s
  | _ => none

def bool : Value → Option Bool
  | .bool b => some b
  | _ => none

def nullable {α : Type} (f : Value → Option α) : Value → Option (Option α)
  | .null => some none
  | v => (f v).map some

/-- `#[serde(default)]` -/
def defaulted {α : Type} (ms : Members) (name : String) (f : Value → Option α) (default : α) :
    Option α :=
  (field ms name).bind fun
    | none => some default
    | some v => f v

def required {α : Type} (ms : Members) (name : String) (f : Value → Option α) : Option α :=
  (field ms name).bind fun v => v.bind f

def repositoryRef (v : Value) : Option RepositoryRef := do
  let ms ← members v
  let id ← defaulted ms "id" string ""
  let name ← defaulted ms "name" string ""
  let url ← defaulted ms "url" string ""
  let defaultBranch ← defaulted ms "defaultBranch" (nullable string) none
  return { id, name, url, defaultBranch }

def gitIdentity (v : Value) : Option GitIdentity := do
  let ms ← members v
  let name ← defaulted ms "name" (nullable string) none
  let email ← defaulted ms "email" (nullable string) none
  return { name, email }

def sourceArchive (v : Value) : Option SourceArchive := do
  let ms ← members v
  let format ← required ms "format" string
  let contentBase64 ← required ms "contentBase64" string
  return { format, contentBase64 }

def submitBody (v : Value) : Option SubmitBody := do
  let ms ← members v
  let repository ← defaulted ms "repository" repositoryRef ⟨"", "", "", none⟩
  let ref ← defaulted ms "ref" string ""
  let before ← defaulted ms "before" string ""
  let after ← defaulted ms "after" string ""
  let dryRun ← defaulted ms "dryRun" bool false
  let pusher ← defaulted ms "pusher" (nullable gitIdentity) none
  let workflowId ← defaulted ms "workflowId" (nullable string) none
  let source ← required ms "source" sourceArchive
  return { repository, ref, before, after, dryRun, pusher, workflowId, source }

end Decode

/-- Values deeper than this are refused. -/
def jsonDepth : ℕ := 127

/-- `serde_json::from_slice`, by what it says of a text that is refused. -/
def decodeBody (malformed : String → String) (body : String) : Except String SubmitBody :=
  match (JsonText.read jsonDepth body.toList).bind Decode.submitBody with
  | some b => .ok b
  | none => .error (malformed body)

/-- `hex::decode` -/
def unhex : List Char → Option Bytes
  | [] => some []
  | [_] => none
  | a :: b :: rest => do
    let a ← JsonText.hexDigit a
    let b ← JsonText.hexDigit b
    let bs ← unhex rest
    return UInt8.ofNat (16 * a + b) :: bs

inductive SignatureError where
  | missing
  | malformed
  | bad
  deriving Repr, DecidableEq

/-- `verify_signature` -/
def verifySignature (hmac : Bytes → Bytes → Bytes) (secret body : String) (header : Option String) :
    Except SignatureError Unit :=
  match header with
  | none => .error .missing
  | some header => match Text.stripPrefix "sha256=" (Text.trim header) with
    | none => .error .malformed
    | some digits => match unhex digits.toList with
      | none => .error .malformed
      | some provided =>
        let expected := hmac (utf8 secret) (utf8 body)
        if provided.length = expected.length ∧ provided = expected then .ok () else .error .bad

/-- All of them read alike. -/
def SignatureError.text (_ : SignatureError) : String :=
  "the request carries no usable credential. Register the repository on /repos and set " ++
    "`git config ci.token`, or sign with the shared CI_WEBHOOK_SECRET and check that the client and " ++
    "the server agree on it."

/-- The handler with these two. -/
def Web.reading (web : Web) (hmac : Bytes → Bytes → Bytes) (secret : String)
    (malformed : String → String) : Web :=
  { web with
    verifySignature := fun body header =>
      (HeyoCi.verifySignature hmac secret body header).mapError fun e => (401, e.text)
    decode := fun body => (decodeBody malformed body).map SubmitBody.request }

/-! ## What is meant -/

/-- A text without what `$(...)` takes away. -/
def printed (s : String) : List Char := substituted s.toList

/-- The text that a field is about, where there is one. -/
def printedOrNone (s : String) : Option String := if s = "" then none else some (String.ofList (printed s))

namespace Sending

variable (s : Sending)

/-- The texts that may hold anything. -/
def texts : List (List Char) := [printed s.repoName, printed s.repoUrl, printed s.defaultBranch,
  printed s.branch, printed s.pusherName, printed s.pusherEmail, printed s.workflow]

def printedRef : String := String.ofList ("refs/heads/".toList ++ printed s.branch)

/-- What is meant by a payload. -/
def body : SubmitBody where
  repository :=
    { id := String.ofList (printed s.repoName)
      name := String.ofList (printed s.repoName)
      url := String.ofList (printed s.repoUrl)
      defaultBranch := printedOrNone s.defaultBranch }
  ref := s.printedRef
  before := s.beforeText
  after := s.after
  dryRun := false
  pusher := some
    { name := some (String.ofList (printed s.pusherName))
      email := some (String.ofList (printed s.pusherEmail)) }
  workflowId := printedOrNone s.workflow
  source := ⟨s.format.asStr, String.ofList (Base64.encode s.content)⟩

end Sending

/-! ## Escaped texts -/

/-- What `esc` makes of a letter. -/
def spelled (c : Char) : List Char :=
  if c = '\\' then ['\\', '\\'] else if c = '"' then ['\\', '"'] else [c]

theorem sedEscape_eq (cs : List Char) : sedEscape cs = cs.flatMap spelled := by
  rw [sedEscape, List.flatMap_assoc]
  congr 1
  funext c
  by_cases hback : c = '\\'
  · subst hback
    rfl
  · rw [if_neg hback, spelled, if_neg hback, List.flatMap_singleton]

theorem spells_spelled {c : Char} (hc : isControl c = false) : Spells c (spelled c) := by
  unfold spelled
  split_ifs with hback hquote
  · subst hback
    exact spells_escaped (w := ['\\']) fun _ => rfl
  · subst hquote
    exact spells_escaped (w := ['"']) fun _ => rfl
  · exact spells_self hquote hback hc

theorem spelled_control {c : Char} (hc : isControl c = true) : spelled c = [c] := by
  unfold spelled
  split_ifs with hback hquote
  · subst hback
    cases hc
  · subst hquote
    cases hc
  · rfl

theorem spelled_ne_nil (c : Char) : spelled c ≠ [] := by
  unfold spelled
  split_ifs <;> exact List.cons_ne_nil _ _

/-- What `$(...)` takes away is not escaped. -/
theorem esc_eq (s : String) : esc s = (printed s).flatMap spelled := by
  rw [esc, sedEscape_eq, printed, substituted, substituted]
  induction s.toList using List.reverseRecOn with
  | nil => rfl
  | append_singleton cs c ih =>
    rw [List.rdropWhile_concat, List.flatMap_append, List.flatMap_singleton]
    by_cases hc : c = '\n'
    · subst hc
      rw [if_pos (by decide)]
      change (cs.flatMap spelled ++ ['\n']).rdropWhile _ = _
      rw [List.rdropWhile_concat, if_pos (by decide), ih]
    · rw [if_neg (by simpa using hc), List.flatMap_append, List.flatMap_singleton]
      have hlast : ∃ ws d, spelled c = ws ++ [d] ∧ d ≠ '\n' := by
        unfold spelled
        split_ifs
        · exact ⟨['\\'], '\\', rfl, by decide⟩
        · exact ⟨['\\'], '"', rfl, by decide⟩
        · exact ⟨[], c, rfl, hc⟩
      obtain ⟨ws, d, hspelled, hd⟩ := hlast
      rw [hspelled, ← List.append_assoc, List.rdropWhile_concat, if_neg (by simpa using hd)]

/-- How a text is read. -/
def meaning (cs : List Char) : Option Value :=
  if cs.any isControl then none else some (.str (String.ofList cs))

theorem written_esc {depth : ℕ} (s : String) :
    WrittenAs depth (strText (esc s)) (meaning (printed s)) := by
  rw [esc_eq]
  exact written_str (fun c => spells_spelled) (fun c => spelled_control) spelled_ne_nil _

theorem written_quotedOrNull {depth : ℕ} (s : String) : WrittenAs depth (quotedOrNull s)
    (if s = "" then some .null else meaning (printed s)) := by
  rw [quotedOrNull]
  split_ifs
  · exact written_null
  · exact written_esc s

/-! ## The payload is read -/

namespace Sending

variable (s : Sending)

def nullOr (cs : String) : Option Value := if cs = "" then some .null else meaning (printed cs)

def repositoryParts : List Member := [
  ⟨"id", strText (esc s.repoName), meaning (printed s.repoName)⟩,
  ⟨"name", strText (esc s.repoName), meaning (printed s.repoName)⟩,
  ⟨"url", strText (esc s.repoUrl), meaning (printed s.repoUrl)⟩,
  ⟨"defaultBranch", quotedOrNull s.defaultBranch, nullOr s.defaultBranch⟩]

def pusherParts : List Member := [
  ⟨"name", strText (esc s.pusherName), meaning (printed s.pusherName)⟩,
  ⟨"email", strText (esc s.pusherEmail), meaning (printed s.pusherEmail)⟩]

def sourceParts : List Member := [
  ⟨"format", strText s.format.asStr.toList, some (.str s.format.asStr)⟩,
  ⟨"contentBase64", strText (Base64.encode s.content),
    some (.str (String.ofList (Base64.encode s.content)))⟩]

def object (ps : List Member) : Option Value := (readParts ps).map .obj

def repositoryPart : Member := ⟨"repository", objText s.repositoryParts, object s.repositoryParts⟩

def refPart : Member := ⟨"ref", strText ("refs/heads/".toList ++ esc s.branch),
  meaning ("refs/heads/".toList ++ printed s.branch)⟩

def beforePart : Member := ⟨"before", strText s.beforeText.toList, some (.str s.beforeText)⟩

def afterPart : Member := ⟨"after", strText s.after.toList, some (.str s.after)⟩

def dryRunPart : Member := ⟨"dryRun", "false".toList, some (.bool false)⟩

def pusherPart : Member := ⟨"pusher", objText s.pusherParts, object s.pusherParts⟩

def workflowPart : Member := ⟨"workflowId", quotedOrNull s.workflow, nullOr s.workflow⟩

def sourcePart : Member := ⟨"source", objText s.sourceParts, object s.sourceParts⟩

/-- The payload, member by member. -/
def parts : List Member := [s.repositoryPart, s.refPart, s.beforePart, s.afterPart, dryRunPart, s.pusherPart,
  s.workflowPart, s.sourcePart]

theorem repositoryText_eq : s.repositoryText = '{' :: (s.repositoryPart.write ++ [',']) := by
  delta repositoryText repositoryPart repositoryParts
  simp only [objText, partsText, Member.write, strText]
  simp only [String.reduceToList]
  simp only [List.append_assoc, List.cons_append, List.nil_append]

theorem refText_eq : s.refText = s.refPart.write ++ (',' :: (s.beforePart.write ++ (',' ::
    (s.afterPart.write ++ (',' :: (dryRunPart.write ++ [','])))))) := by
  delta refText refPart beforePart afterPart dryRunPart
  simp only [Member.write, strText]
  simp only [String.reduceToList]
  simp only [List.append_assoc, List.cons_append, List.nil_append]

theorem pusherText_eq : s.pusherText = s.pusherPart.write ++ [','] := by
  delta pusherText pusherPart pusherParts
  simp only [objText, partsText, Member.write, strText]
  simp only [String.reduceToList]
  simp only [List.append_assoc, List.cons_append, List.nil_append]

theorem workflowText_eq : s.workflowText = s.workflowPart.write ++ [','] := by
  delta workflowText workflowPart
  simp only [Member.write]
  simp only [String.reduceToList]
  simp only [List.cons_append, List.nil_append]

theorem sourceText_eq : s.sourceText = s.sourcePart.write ++ ['}'] := by
  delta sourceText sourcePart sourceParts
  simp only [objText, partsText, Member.write, strText]
  simp only [String.reduceToList]
  simp only [List.append_assoc, List.cons_append, List.nil_append]

/-- **What is printed is an object of these members.** -/
theorem payload_eq : s.payload = objText s.parts := by
  rw [payload, repositoryText_eq, refText_eq, pusherText_eq, workflowText_eq, sourceText_eq, objText,
    parts]
  simp only [partsText, List.append_assoc, List.cons_append, List.nil_append]

end Sending

theorem plainKey_of_hex {cs : List Char} (h : cs.all isHexDigit = true) : PlainKey cs := by
  have hall : PlainKey
      ['0', '1', '2', '3', '4', '5', '6', '7', '8', '9', 'a', 'b', 'c', 'd', 'e', 'f'] := by decide
  exact fun c hc => hall c (of_decide_eq_true (List.all_eq_true.mp h c hc))

theorem plainKey_append {as bs : List Char} (has : PlainKey as) (hbs : PlainKey bs) :
    PlainKey (as ++ bs) := by
  intro c hc
  rcases List.mem_append.mp hc with hc | hc
  · exact has c hc
  · exact hbs c hc

/-- A letter of what the client does not escape and does not cut. -/
def PlainChar (c : Char) : Prop :=
  c ≠ '"' ∧ c ≠ '\\' ∧ isControl c = false ∧ Text.isWhitespace c = false

instance : DecidablePred PlainChar := fun c =>
  inferInstanceAs
    (Decidable (c ≠ '"' ∧ c ≠ '\\' ∧ isControl c = false ∧ Text.isWhitespace c = false))

theorem plainKey_of_chars {cs : List Char} (h : ∀ c ∈ cs, PlainChar c) : PlainKey cs :=
  fun c hc => ⟨(h c hc).1, (h c hc).2.1, (h c hc).2.2.1⟩

theorem plainChar_of_alphanum {c : Char} (h : c.isAlphanum = true) : PlainChar c := by
  have hrange : 48 ≤ c.toNat ∧ c.toNat ≤ 57 ∨ 65 ≤ c.toNat ∧ c.toNat ≤ 90 ∨
      97 ≤ c.toNat ∧ c.toNat ≤ 122 := by
    delta Char.isAlphanum Char.isAlpha Char.isUpper Char.isLower Char.isDigit at h
    simp only [Bool.or_eq_true, Bool.and_eq_true, decide_eq_true_eq] at h
    rcases h with (⟨hle, hge⟩ | ⟨hle, hge⟩) | ⟨hle, hge⟩
    · exact Or.inr (Or.inl ⟨UInt32.le_iff_toNat_le.mp hle, UInt32.le_iff_toNat_le.mp hge⟩)
    · exact Or.inr (Or.inr ⟨UInt32.le_iff_toNat_le.mp hle, UInt32.le_iff_toNat_le.mp hge⟩)
    · exact Or.inl ⟨UInt32.le_iff_toNat_le.mp hle, UInt32.le_iff_toNat_le.mp hge⟩
  refine ⟨?_, ?_, ?_, ?_⟩
  · rintro rfl
    cases h
  · rintro rfl
    cases h
  · rw [isControl, decide_eq_false_iff_not]
    omega
  · simp only [Text.isWhitespace, Bool.or_eq_false_iff, Bool.and_eq_false_iff, decide_eq_false_iff_not]
    omega

theorem plainKey_base64 (bs : Bytes) : PlainKey (Base64.encode bs) := by
  refine plainKey_of_chars fun c hc => ?_
  rcases Base64.mem_encode hc with hletter | rfl
  · rw [Base64.isLetter, Bool.or_eq_true, Bool.or_eq_true, decide_eq_true_eq, decide_eq_true_eq] at hletter
    rcases hletter with (h | rfl) | rfl
    · exact plainChar_of_alphanum h
    · decide
    · decide
  · decide

namespace Sending

variable (s : Sending)

theorem plainKey_after : PlainKey s.after.toList := by
  rw [after]
  split_ifs
  · rw [String.toList_append]
    exact plainKey_append (plainKey_of_hex s.sha.2) (by decide)
  · exact plainKey_of_hex s.sha.2

theorem plainKey_before : PlainKey s.beforeText.toList := by
  rw [beforeText]
  cases s.before with
  | none => decide
  | some name => exact plainKey_of_hex name.2

theorem written_ref {depth : ℕ} : WrittenAs depth s.refPart.text s.refPart.meaning := by
  have hfixed : ("refs/heads/".toList).flatMap spelled = "refs/heads/".toList := by decide
  have htext : "refs/heads/".toList ++ esc s.branch =
      ("refs/heads/".toList ++ printed s.branch).flatMap spelled := by
    rw [List.flatMap_append, hfixed, esc_eq]
  have hwritten := @written_str depth _ (fun c => spells_spelled) (fun c => spelled_control)
    spelled_ne_nil ("refs/heads/".toList ++ printed s.branch)
  rw [← htext] at hwritten
  exact hwritten

/-- Every member is read as it is meant, or refused. -/
theorem written_parts {depth : ℕ} :
    ∀ p ∈ s.parts, PlainKey p.key.toList ∧ WrittenAs (depth + 1) p.text p.meaning := by
  have hrepository : ∀ p ∈ s.repositoryParts,
      PlainKey p.key.toList ∧ WrittenAs depth p.text p.meaning := by
    intro p hp
    simp only [repositoryParts, List.mem_cons, List.not_mem_nil, or_false] at hp
    rcases hp with rfl | rfl | rfl | rfl
    · exact ⟨(by decide : PlainKey "id".toList), written_esc _⟩
    · exact ⟨(by decide : PlainKey "name".toList), written_esc _⟩
    · exact ⟨(by decide : PlainKey "url".toList), written_esc _⟩
    · exact ⟨(by decide : PlainKey "defaultBranch".toList), written_quotedOrNull _⟩
  have hpusher : ∀ p ∈ s.pusherParts, PlainKey p.key.toList ∧ WrittenAs depth p.text p.meaning := by
    intro p hp
    simp only [pusherParts, List.mem_cons, List.not_mem_nil, or_false] at hp
    rcases hp with rfl | rfl
    · exact ⟨(by decide : PlainKey "name".toList), written_esc _⟩
    · exact ⟨(by decide : PlainKey "email".toList), written_esc _⟩
  have hsource : ∀ p ∈ s.sourceParts, PlainKey p.key.toList ∧ WrittenAs depth p.text p.meaning := by
    intro p hp
    simp only [sourceParts, List.mem_cons, List.not_mem_nil, or_false] at hp
    rcases hp with rfl | rfl
    · refine ⟨(by decide : PlainKey "format".toList), written_string ?_⟩
      cases s.format <;> decide
    · exact ⟨(by decide : PlainKey "contentBase64".toList), written_plain (plainKey_base64 _)⟩
  intro p hp
  simp only [parts, List.mem_cons, List.not_mem_nil, or_false] at hp
  rcases hp with rfl | rfl | rfl | rfl | rfl | rfl | rfl | rfl
  · exact ⟨(by decide : PlainKey "repository".toList), written_obj (List.cons_ne_nil _ _) hrepository⟩
  · exact ⟨(by decide : PlainKey "ref".toList), s.written_ref⟩
  · exact ⟨(by decide : PlainKey "before".toList), written_string s.plainKey_before⟩
  · exact ⟨(by decide : PlainKey "after".toList), written_string s.plainKey_after⟩
  · exact ⟨(by decide : PlainKey "dryRun".toList), written_false⟩
  · exact ⟨(by decide : PlainKey "pusher".toList), written_obj (List.cons_ne_nil _ _) hpusher⟩
  · exact ⟨(by decide : PlainKey "workflowId".toList), written_quotedOrNull _⟩
  · exact ⟨(by decide : PlainKey "source".toList), written_obj (List.cons_ne_nil _ _) hsource⟩

/-- **A payload is read as the object of its members**, or refused. -/
theorem read_payload : JsonText.read jsonDepth s.payload = object s.parts := by
  rw [payload_eq]
  exact read_written (written_obj (List.cons_ne_nil _ _) s.written_parts)

/-- A text that can be written. -/
def Plain (cs : List Char) : Prop := cs.any isControl = false

instance (cs : List Char) : Decidable (Plain cs) := inferInstanceAs (Decidable (_ = false))

theorem meaning_of_plain {cs : List Char} (h : Plain cs) :
    meaning cs = some (.str (String.ofList cs)) := if_neg (by
  rw [h]
  exact Bool.false_ne_true)

theorem meaning_of_not_plain {cs : List Char} (h : ¬ Plain cs) : meaning cs = none :=
  if_pos (Bool.of_not_eq_false h)

/-- How a text is read that may be missing. -/
def nullable (t : String) : Value := (printedOrNone t).elim .null .str

theorem nullOr_of_plain {t : String} (h : Plain (printed t)) : nullOr t = some (nullable t) := by
  rw [nullOr, nullable, printedOrNone]
  split_ifs
  · rfl
  · exact meaning_of_plain h

theorem nullOr_of_not_plain {t : String} (h : ¬ Plain (printed t)) : nullOr t = none := by
  rw [nullOr, if_neg, meaning_of_not_plain h]
  rintro rfl
  exact h rfl

/-- Every text can be written. -/
def AllPlain : Prop := ∀ cs ∈ s.texts, Plain cs

instance : Decidable s.AllPlain := List.decidableBAll _ s.texts

def repositoryValue : Value := .obj [("id", .str (String.ofList (printed s.repoName))),
  ("name", .str (String.ofList (printed s.repoName))), ("url", .str (String.ofList (printed s.repoUrl))),
  ("defaultBranch", nullable s.defaultBranch)]

def pusherValue : Value := .obj [("name", .str (String.ofList (printed s.pusherName))),
  ("email", .str (String.ofList (printed s.pusherEmail)))]

def sourceValue : Value := .obj [("format", .str s.format.asStr),
  ("contentBase64", .str (String.ofList (Base64.encode s.content)))]

/-- The payload as a value. -/
def document : Value := .obj [("repository", s.repositoryValue),
  ("ref", .str s.printedRef),
  ("before", .str s.beforeText), ("after", .str s.after), ("dryRun", .bool false),
  ("pusher", s.pusherValue), ("workflowId", nullable s.workflow),
  ("source", s.sourceValue)]

theorem plain_ref : Plain ("refs/heads/".toList ++ printed s.branch) ↔ Plain (printed s.branch) := by
  have hfixed : ("refs/heads/".toList).any isControl = false := by decide
  rw [Plain, Plain, List.any_append, hfixed, Bool.false_or]

theorem object_of_plain (h : s.AllPlain) : object s.parts = some s.document := by
  simp only [AllPlain, texts, List.forall_mem_cons, List.not_mem_nil, false_imp_iff, implies_true,
    and_true] at h
  obtain ⟨hname, hurl, hdefault, hbranch, hpusher, hemail, hworkflow⟩ := h
  have hrepository : object s.repositoryParts = some s.repositoryValue := by
    delta object repositoryParts
    simp only [readParts, meaning_of_plain hname, meaning_of_plain hurl, nullOr_of_plain hdefault,
      Option.bind_some, Option.map_some]
    rfl
  have hidentity : object s.pusherParts = some s.pusherValue := by
    delta object pusherParts
    simp only [readParts, meaning_of_plain hpusher, meaning_of_plain hemail, Option.bind_some,
      Option.map_some]
    rfl
  have href := meaning_of_plain (s.plain_ref.mpr hbranch)
  rw [object]
  delta parts repositoryPart refPart beforePart afterPart dryRunPart pusherPart workflowPart
    sourcePart
  simp only [readParts, hrepository, hidentity, href, nullOr_of_plain hworkflow, Option.bind_some,
    Option.map_some]
  rfl

/-- **A text that cannot be written** spoils the payload. -/
theorem object_of_not_plain (h : ¬ s.AllPlain) : object s.parts = none := by
  have hpart : ∀ {ps : List Member} {p : Member}, p ∈ ps → p.meaning = none → object ps = none := by
    intro ps p hp hnone
    rw [object, readParts_none hp hnone]
    rfl
  have hroot : ∀ {n : ℕ} {p : Member}, s.parts[n]? = some p → p.meaning = none →
      object s.parts = none :=
    fun hp => hpart (List.mem_of_getElem? hp)
  have hrepository : ∀ {n : ℕ} {p : Member}, s.repositoryParts[n]? = some p → p.meaning = none →
      object s.parts = none :=
    fun hp hnone => hroot (n := 0) rfl (hpart (List.mem_of_getElem? hp) hnone)
  have hpusher : ∀ {n : ℕ} {p : Member}, s.pusherParts[n]? = some p → p.meaning = none →
      object s.parts = none :=
    fun hp hnone => hroot (n := 5) rfl (hpart (List.mem_of_getElem? hp) hnone)
  rw [AllPlain] at h
  push Not at h
  obtain ⟨cs, hmem, hcs⟩ := h
  simp only [texts, List.mem_cons, List.not_mem_nil, or_false] at hmem
  rcases hmem with rfl | rfl | rfl | rfl | rfl | rfl | rfl
  · exact hrepository (n := 0) rfl (meaning_of_not_plain hcs)
  · exact hrepository (n := 2) rfl (meaning_of_not_plain hcs)
  · exact hrepository (n := 3) rfl (nullOr_of_not_plain hcs)
  · exact hroot (n := 1) rfl (meaning_of_not_plain fun hplain => hcs (s.plain_ref.mp hplain))
  · exact hpusher (n := 0) rfl (meaning_of_not_plain hcs)
  · exact hpusher (n := 1) rfl (meaning_of_not_plain hcs)
  · exact hroot (n := 6) rfl (nullOr_of_not_plain hcs)

/-- **The value of a payload** says what is meant by it. -/
theorem submitBody_document : Decode.submitBody s.document = some s.body := by
  have hnullable : ∀ t : String, Decode.nullable Decode.string (nullable t) = some (printedOrNone t) := by
    intro t
    rw [nullable]
    cases printedOrNone t <;> rfl
  have hrepository : Decode.repositoryRef s.repositoryValue = some s.body.repository := by
    delta Decode.repositoryRef repositoryValue body Decode.defaulted Decode.field
    simp [Decode.members, hnullable, Decode.string]
  have hpusher : Decode.nullable Decode.gitIdentity s.pusherValue = some s.body.pusher := by
    delta pusherValue body Decode.nullable Decode.gitIdentity Decode.defaulted Decode.field
    simp [Decode.members, Decode.string]
  have hsource : Decode.sourceArchive s.sourceValue = some s.body.source := by
    delta Decode.sourceArchive sourceValue body Decode.required Decode.field
    simp [Decode.members, Decode.string]
  delta Decode.submitBody document Decode.defaulted Decode.required Decode.field
  simp [Decode.members, hrepository, hpusher, hsource, hnullable, Decode.string, Decode.bool]
  rfl

/-- **What the server makes of a payload.** -/
theorem decodeBody_payload (malformed : String → String) :
    decodeBody malformed (String.ofList s.payload) =
      if s.AllPlain then .ok s.body else .error (malformed (String.ofList s.payload)) := by
  rw [decodeBody, String.toList_ofList, read_payload]
  split_ifs with h
  · rw [object_of_plain s h, Option.bind_some, submitBody_document]
  · rw [object_of_not_plain s h]
    rfl

end Sending

/-! ## Credentials -/

theorem unhex_hex (bs : Bytes) : unhex (hex bs).toList = some bs := by
  have hdigit : ∀ n : Fin 16, JsonText.hexDigit (n : Nat).digitChar = some n.val := by decide
  rw [hex, String.toList_ofList]
  induction bs with
  | nil => rfl
  | cons b bs ih =>
    have hb := b.toNat_lt
    have hhigh := hdigit ⟨b.toNat / 16, by omega⟩
    have hlow := hdigit ⟨b.toNat % 16, by omega⟩
    have hbyte : UInt8.ofNat (16 * (b.toNat / 16) + b.toNat % 16) = b := by
      rw [Nat.div_add_mod]
      exact UInt8.ofNat_toNat
    rw [List.flatMap_cons, List.cons_append, List.cons_append, List.nil_append, unhex, hhigh, hlow, ih]
    exact congrArg (fun c => some (c :: bs)) hbyte

theorem curlQuoted_plain {cs : List Char} (h : PlainKey cs) : curlQuoted (cs ++ ['"']) = cs := by
  induction cs with
  | nil => rfl
  | cons c cs ih =>
    obtain ⟨hquote, hback, -⟩ := h c List.mem_cons_self
    rw [List.cons_append, curlQuoted, ih fun d hd => h d (List.mem_cons_of_mem c hd)]
    · exact hquote
    -- no backslash, whatever it would stand before
    · exact fun _ hc => absurd hc hback
    · exact fun _ hc => absurd hc hback
    · exact fun _ hc => absurd hc hback
    · exact fun _ hc => absurd hc hback
    · exact fun _ _ hc => absurd hc hback

theorem hexDigit_mem {bs : Bytes} {c : Char} (h : c ∈ (hex bs).toList) :
    ∃ n : Fin 16, c = (n : Nat).digitChar := by
  rw [hex, String.toList_ofList, List.mem_flatMap] at h
  obtain ⟨b, -, hc⟩ := h
  have hb := b.toNat_lt
  simp only [List.mem_cons, List.not_mem_nil, or_false] at hc
  rcases hc with rfl | rfl
  · exact ⟨⟨b.toNat / 16, by omega⟩, rfl⟩
  · exact ⟨⟨b.toNat % 16, by omega⟩, rfl⟩

theorem hexDigit_plain : ∀ n : Fin 16, (n : Nat).digitChar ≠ '"' ∧ (n : Nat).digitChar ≠ '\\' ∧
    isControl (n : Nat).digitChar = false ∧ Text.isWhitespace (n : Nat).digitChar = false := by
  decide

/-- **What a client says it signed** is accepted for the texts with that signature. -/
theorem verifySignature_hex {hmac : Bytes → Bytes → Bytes} {secret body : String} (mac : Bytes) :
    verifySignature hmac secret body (some (String.ofList ("sha256=".toList ++ (hex mac).toList))) =
      if mac = hmac (utf8 secret) (utf8 body) then .ok () else .error .bad := by
  have hspace : ∀ c ∈ "sha256=".toList ++ (hex mac).toList, Text.isWhitespace c = false := by
    intro c hc
    rcases List.mem_append.mp hc with hc | hc
    · have hprefix : "sha256=".toList.all (fun c => !Text.isWhitespace c) = true := by decide
      exact (Bool.not_eq_true' _).mp (List.all_eq_true.mp hprefix c hc)
    · obtain ⟨n, rfl⟩ := hexDigit_mem hc
      exact (hexDigit_plain n).2.2.2
  have hstrip : Text.stripPrefix "sha256=" (String.ofList ("sha256=".toList ++ (hex mac).toList)) =
      some (hex mac) := Text.stripPrefix_eq_some.mpr String.toList_ofList
  delta verifySignature
  simp only [Text.trim_of_noSpace hspace, hstrip, unhex_hex]
  by_cases hmac' : mac = hmac (utf8 secret) (utf8 body)
  · rw [if_pos ⟨congrArg List.length hmac', hmac'⟩, if_pos hmac']
  · rw [if_neg fun h => hmac' h.2, if_neg hmac']

/-- The letters of a minted token. -/
theorem plainChar_token {keyId : String} {drawn : Vector UInt8 32}
    (hkey : keyId.toList.all Repos.isKeyChar = true) :
    ∀ c ∈ (Repos.tokenText keyId (Repos.randomSecret drawn)).toList, PlainChar c := by
  intro c hc
  rw [Repos.toList_tokenText, List.mem_append, List.mem_append, List.mem_cons] at hc
  rcases hc with hc | hc | rfl | hc
  · have hprefix : Repos.tokenPrefix.toList.all (fun c => decide (PlainChar c)) = true := by decide
    exact of_decide_eq_true (List.all_eq_true.mp hprefix c hc)
  · have hchar := List.all_eq_true.mp hkey c hc
    rw [Repos.isKeyChar, Bool.or_eq_true, decide_eq_true_eq] at hchar
    rcases hchar with h | rfl
    · exact plainChar_of_alphanum h
    · decide
  · decide
  · rw [Repos.randomSecret, String.toList_ofList] at hc
    have hletters : base64Letters.all (fun c => decide (PlainChar c)) = true := by decide
    exact of_decide_eq_true (List.all_eq_true.mp hletters c (mem_encodeBase64 hc))

/-- **A token is read from its header.** -/
theorem bearer_token {token : String} (hne : token ≠ "") (htoken : ∀ c ∈ token.toList, PlainChar c)
    (signature : Option String) :
    bearer ⟨some (String.ofList ("Bearer ".toList ++ token.toList)), signature⟩ = some token := by
  have hspace : ∀ c ∈ token.toList, Text.isWhitespace c = false := fun c hc => (htoken c hc).2.2.2
  have hcs : token.toList ≠ [] := fun h => hne (String.toList_eq_nil_iff.mp h)
  have htrimmed : Text.Trimmed ("Bearer ".toList ++ token.toList) := by
    refine ⟨fun c hc => ?_, fun c hc => ?_⟩
    · obtain rfl : 'B' = c := Option.some.inj hc
      decide
    · rw [List.getLast?_append_of_ne_nil _ hcs] at hc
      exact hspace c (List.mem_of_getLast? hc)
  have htake : ("Bearer ".toList ++ token.toList).takeWhile (· ≠ ' ') = "Bearer".toList := rfl
  have hdrop : (("Bearer ".toList ++ token.toList).dropWhile (· ≠ ' ')).drop 1 = token.toList := rfl
  have hcontains : ("Bearer ".toList ++ token.toList).contains ' ' = true := rfl
  have htrim : Text.trim (String.ofList token.toList) = token := by
    rw [Text.trim_of_noSpace hspace, String.ofList_toList]
  have hnonempty : token.isEmpty = false := by
    rw [Bool.eq_false_iff, ne_eq, String.isEmpty_iff]
    exact hne
  delta bearer
  simp only [Option.bind_some, Text.trim_of_trimmed htrimmed, String.toList_ofList, htake, hdrop, hcontains,
    htrim, hnonempty]
  rfl

/-! ## The request -/

namespace Sending

variable (s : Sending)

theorem decodeSource_body (base64Error : String → String) (max : Nat) :
    decodeSource base64Error s.body.source max =
      if max < s.content.length then .error (.archiveTooLarge s.content.length max)
      else .ok (s.format, s.content) := by
  have hparse : SourceFormat.parse s.body.source.format = some s.format := SourceFormat.parse_asStr s.format
  have hbase64 : Base64.decode s.body.source.contentBase64.toList = some s.content := by
    rw [Base64.decode_eq_some]
    exact String.toList_ofList
  rw [decodeSource, hparse]
  dsimp only
  rw [hbase64]

end Sending

theorem headers_shared {hmac : Bytes → Bytes → Bytes} {payload mine : String} :
    Secret.headers hmac payload (.shared mine) = ⟨none, some (String.ofList ("sha256=".toList ++
      (hex (hmac (utf8 mine) (utf8 payload))).toList))⟩ := by
  have hplain : PlainKey ("sha256=".toList ++ (hex (hmac (utf8 mine) (utf8 payload))).toList) := by
    refine plainKey_append (by decide) fun c hc => ?_
    obtain ⟨n, rfl⟩ := hexDigit_mem hc
    have h := hexDigit_plain n
    exact ⟨h.1, h.2.1, h.2.2.1⟩
  rw [Secret.headers, curlQuoted_plain hplain]

theorem headers_token {hmac : Bytes → Bytes → Bytes} {payload token : String}
    (htoken : ∀ c ∈ token.toList, PlainChar c) : Secret.headers hmac payload (.token token) =
      ⟨some (String.ofList ("Bearer ".toList ++ token.toList)), none⟩ := by
  rw [Secret.headers, curlQuoted_plain (plainKey_append (by decide) (plainKey_of_chars htoken))]

section Request

variable (hmac : Bytes → Bytes → Bytes) (malformed : String → String) (web : Web) (secret : String)

theorem reading_decode (payload : String) : (web.reading hmac secret malformed).decode payload =
    (decodeBody malformed payload).map SubmitBody.request := rfl

theorem reading_verifySignature (body : String) (header : Option String) :
    (web.reading hmac secret malformed).verifySignature body header =
      (verifySignature hmac secret body header).mapError fun e => (401, e.text) := rfl

theorem authenticate_shared (hopen : web.requireRepoToken = false) (payload mine body : String) :
    authenticateSubmit (web.reading hmac secret malformed)
        (Secret.headers hmac payload (.shared mine)) body =
      if hmac (utf8 mine) (utf8 payload) = hmac (utf8 secret) (utf8 body) then .ok .shared
      else .error (.error 401 SignatureError.bad.text) := by
  have hbearer : ∀ signature, bearer ⟨none, signature⟩ = none := fun _ => rfl
  have hopen' : (web.reading hmac secret malformed).requireRepoToken = false := hopen
  rw [headers_shared, authenticateSubmit, hbearer]
  dsimp only
  rw [hopen', if_neg Bool.false_ne_true, reading_verifySignature, verifySignature_hex]
  split_ifs <;> rfl

theorem bearer_minted {keyId : String} (hkey : keyId.toList.all Repos.isKeyChar = true)
    (drawn : Vector UInt8 32) (payload : String) :
    bearer (Secret.headers hmac payload (.token (Repos.tokenText keyId (Repos.randomSecret drawn)))) =
      some (Repos.tokenText keyId (Repos.randomSecret drawn)) := by
  have htoken : ∀ c ∈ (Repos.tokenText keyId (Repos.randomSecret drawn)).toList, PlainChar c :=
    plainChar_token hkey
  have hne : Repos.tokenText keyId (Repos.randomSecret drawn) ≠ "" := by
    intro h
    have hlist := congrArg String.toList h
    rw [Repos.toList_tokenText] at hlist
    cases hlist
  rw [headers_token htoken]
  exact bearer_token hne htoken none

/-- What is created for a payload with the token of a repository. -/
theorem created_payload {token : String} {repo : Repo} {headers : Headers}
    (ht : bearer headers = some token)
    (ha : web.authenticateRepoToken token = .ok (some repo)) (s : Sending) (cfg : SubmitConfig)
    (pool : Pool) (objects : WorkflowSet) (intake : Intake) :
    (handleSubmit (web.reading hmac secret malformed) cfg pool objects intake headers
      (String.ofList s.payload)).2 =
      if s.AllPlain ∧ misdirected repo s.body.request = false then
        (submit cfg pool intake s.body.request (some repo) objects).1
      else [] := by
  have ha' : (web.reading hmac secret malformed).authenticateRepoToken token = .ok (some repo) := ha
  have hdecode := reading_decode hmac malformed web secret (String.ofList s.payload)
  rw [s.decodeBody_payload malformed] at hdecode
  by_cases hplain : s.AllPlain
  · rw [if_pos hplain] at hdecode
    rw [created_handleSubmit ht ha' hdecode]
    cases misdirected repo s.body.request <;> simp [hplain]
  · rw [if_neg hplain] at hdecode
    have hauth : authenticateSubmit (web.reading hmac secret malformed) headers (String.ofList s.payload) =
        .ok (.repo repo) := by
      rw [authenticateSubmit, ht]
      dsimp only
      rw [ha']
    rw [if_neg fun h => hplain h.1, handleSubmit, hauth]
    dsimp only
    rw [hdecode]
    rfl

/-- **A payload is read as it is meant, or refused**, and it carries the submitted bytes; the shared secret
stands for this payload only; and a minted token starts the runs of what is meant, and no others. -/
theorem submit_received (sha256 : Bytes → Bytes) (base64Error : String → String) (s : Sending)
    (max : Nat) :
    decodeBody malformed (String.ofList s.payload) =
        (if s.AllPlain then .ok s.body else .error (malformed (String.ofList s.payload))) ∧
      decodeSource base64Error s.body.source max = (if max < s.content.length then
        .error (.archiveTooLarge s.content.length max) else .ok (s.format, s.content)) ∧
      (∀ mine body, web.requireRepoToken = false →
        authenticateSubmit (web.reading hmac secret malformed)
            (Secret.headers hmac (String.ofList s.payload) (.shared mine)) body =
          if hmac (utf8 mine) (utf8 (String.ofList s.payload)) = hmac (utf8 secret) (utf8 body) then
            .ok .shared
          else .error (.error 401 SignatureError.bad.text)) ∧
      ∀ keyId drawn repo, keyId.toList.all Repos.isKeyChar = true →
        web.authenticateRepoToken (Repos.mint sha256 keyId drawn).plaintext = .ok (some repo) →
        ∀ cfg pool objects intake,
          (handleSubmit (web.reading hmac secret malformed) cfg pool objects intake
            (Secret.headers hmac (String.ofList s.payload)
              (.token (Repos.mint sha256 keyId drawn).plaintext))
            (String.ofList s.payload)).2 =
          if s.AllPlain ∧ misdirected repo s.body.request = false then
            (submit cfg pool intake s.body.request (some repo) objects).1
          else [] :=
  ⟨s.decodeBody_payload malformed, s.decodeSource_body base64Error max,
    fun mine body hopen =>
      authenticate_shared hmac malformed web secret hopen (String.ofList s.payload) mine body,
    fun _ drawn _ hkey hrepo cfg pool objects intake => created_payload hmac malformed web secret
      (bearer_minted hmac hkey drawn (String.ofList s.payload)) hrepo s cfg pool objects intake⟩

end Request

/-! ## A tree of `me/app` -/

/-- A pusher with quotes and a backslash in the name. -/
def Sending.app : Sending where
  repoName := "me/app"
  repoUrl := "git@github.com:me/app.git"
  defaultBranch := "main"
  abbrevRef := "main"
  before := none
  sha := ⟨"c0ffee", by decide⟩
  dirty := false
  pusherName := "Ada \"ada\\l\""
  pusherEmail := "ada@example.com"
  workflow := ""
  format := .tarGz
  content := [0x1f, 0x8b]

/-- The signature of its payload with `s3cret`. -/
def appSignature : Bytes :=
  [0x8d, 0x21, 0x41, 0x45, 0x03, 0x5b, 0x29, 0x8a, 0x90, 0x38, 0x08, 0xf9, 0x22, 0x02, 0xfb, 0x57,
    0x03, 0xc4, 0xf8, 0x50, 0x60, 0x3b, 0xca, 0x7e, 0x36, 0x9f, 0x99, 0xb5, 0x72, 0x09, 0x09, 0x5f]

/-- The digest of a secret that was drawn as zeros. -/
def zerosDigest : Bytes :=
  [0x0f, 0x00, 0x73, 0x85, 0xb6, 0xf9, 0xd4, 0xb7, 0xee, 0xb2, 0x74, 0x86, 0x05, 0xaf, 0xe1, 0xa9,
    0x84, 0xa0, 0xa3, 0xbf, 0xa3, 0xf0, 0x14, 0xd0, 0x9e, 0x2a, 0x78, 0x4c, 0xe9, 0xe5, 0xcd, 0x1a]

/-- The token with that secret. -/
def Repos.Minted.zeros : Repos.Minted := Repos.mint (fun _ => zerosDigest) "k1" (.replicate 32 0)

/-- A server that knows this token, and takes the shared secret. -/
def Web.minted : Web where
  authenticateRepoToken token :=
    .ok (if token = Repos.Minted.zeros.plaintext then some .app else none)
  repoByUrl _ := .ok none
  verifySignature _ _ := .error (401, "this server requires a signature")
  decode _ := .error "expected value"
  requireRepoToken := false
  publicUrl := "http://ci"

theorem submit_received_app :
    decodeBody (fun _ => "expected value") (String.ofList Sending.app.payload) = .ok Sending.app.body ∧
      decodeSource (fun _ => "invalid byte") Sending.app.body.source 2 = .ok (.tarGz, [0x1f, 0x8b]) ∧
      authenticateSubmit (Web.minted.reading (fun _ _ => appSignature) "s3cret" fun _ => "expected value")
        (Secret.headers (fun _ _ => appSignature) (String.ofList Sending.app.payload) (.shared "s3cret"))
        (String.ofList Sending.app.payload) = .ok .shared ∧
      (handleSubmit (Web.minted.reading (fun _ _ => appSignature) "s3cret" fun _ => "expected value")
        ⟨".heyo/*.yml", 1800⟩ .single .two .single (Secret.headers (fun _ _ => appSignature)
          (String.ofList Sending.app.payload) (.token Repos.Minted.zeros.plaintext))
        (String.ofList Sending.app.payload)).2 =
        (submit ⟨".heyo/*.yml", 1800⟩ .single .single Sending.app.body.request (some .app) .two).1 := by
  obtain ⟨hread, hsource, hshared, htoken⟩ := submit_received (fun _ _ => appSignature)
    (fun _ => "expected value") Web.minted "s3cret" (fun _ => zerosDigest) (fun _ => "invalid byte")
    Sending.app 2
  have hplain : Sending.app.AllPlain := by decide
  have hrepo : Web.minted.authenticateRepoToken Repos.Minted.zeros.plaintext = .ok (some .app) :=
    congrArg Except.ok (if_pos rfl)
  have hmine : misdirected .app Sending.app.body.request = false := by decide
  have hruns := htoken "k1" (.replicate 32 0) .app (by decide) hrepo ⟨".heyo/*.yml", 1800⟩ .single
    .two .single
  rw [if_pos hplain] at hread
  rw [if_pos ⟨hplain, hmine⟩] at hruns
  rw [if_neg (by decide)] at hsource
  refine ⟨hread, hsource, ?_, hruns⟩
  rw [hshared "s3cret" (String.ofList Sending.app.payload) rfl, if_pos rfl]

end HeyoCi
