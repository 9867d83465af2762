import HeyoCi.Text

/-!
# Repositories, workflow objects and secret paths

* `Repos.normalize`, `Repos.sameRepo`: when two clone URLs name one repository;
* `Repos.nameFromUrl`: the display name of a repository;
* `Repo`, `WorkflowObject`, `WorkflowSet`: a registration, an object of app-lb, the cached objects;
* `WorkflowSet.find`, `WorkflowSet.forRepo`: the lookups by id and by repository;
* `Secrets.pathPrefix`, `WorkflowObject.secretsPrefix`: where a workflow's secrets are;
* `Secrets.covers`, `Secrets.leafName`, `Secrets.resolves`: what is resolved under a prefix.
-/

namespace HeyoCi

namespace Text

/-- `trim_end_matches` of a pattern, on the reversed text: it goes as often as it is there. -/
def dropAll (pat : List Char) : Nat → List Char → List Char
  | 0, cs => cs
  | n + 1, cs => if pat.isPrefixOf cs then dropAll pat n (cs.drop pat.length) else cs

/-- `str::trim_end_matches`. -/
def trimEndMatches (pat : String) (cs : List Char) : List Char :=
  (dropAll pat.toList.reverse cs.length cs.reverse).reverse

/-- What follows the first occurrence of a pattern. -/
def afterFirst (pat : List Char) : List Char → Option (List Char)
  | [] => none
  | c :: cs => if pat.isPrefixOf (c :: cs) then some ((c :: cs).drop pat.length)
    else afterFirst pat cs

/-- What follows the last occurrence of a character, or everything. -/
def afterLast (c : Char) (cs : List Char) : List Char := (cs.reverse.takeWhile (· ≠ c)).reverse

/-- `replacen(c, d, 1)`. -/
def replaceFirst (c d : Char) : List Char → List Char
  | [] => []
  | x :: xs => if x = c then d :: xs else x :: replaceFirst c d xs

theorem dropAll_succ (pat : List Char) (n : Nat) (cs : List Char) : dropAll pat (n + 1) cs =
    if pat.isPrefixOf cs then dropAll pat n (cs.drop pat.length) else cs := rfl

theorem afterFirst_cons (pat : List Char) (c : Char) (cs : List Char) : afterFirst pat (c :: cs) =
    if pat.isPrefixOf (c :: cs) then some ((c :: cs).drop pat.length) else afterFirst pat cs := rfl

theorem replaceFirst_step (c d x : Char) (xs : List Char) : replaceFirst c d (x :: xs) =
    if x = c then d :: xs else x :: replaceFirst c d xs := rfl

/-- Whether nothing is left after `trim`. -/
def isBlank (s : String) : Bool := (trim s).isEmpty

end Text

namespace Repos

/-- The comparison key of a clone URL: without a scheme, credentials and `.git`. -/
def normalize (url : String) : String :=
  let s := Text.trimEndMatches "/" (Text.trim url).toList
  let s := (Text.afterFirst "://".toList s).getD s
  let s := Text.replaceFirst ':' '/' (Text.afterLast '@' s)
  String.ofList ((Text.trimEndMatches ".git" s).map Char.toLower)

/-- Whether two clone URLs name the same repository. -/
def sameRepo (a b : String) : Bool := !Text.isBlank a && normalize a = normalize b

example : sameRepo "git@github.com:me/app.git" "https://github.com/Me/app/" = true := by decide +kernel

/-- The segments that name a repository, without the host. -/
def nameSegments (segments : List (List Char)) : List (List Char) :=
  if 2 < segments.length then segments.drop (segments.length - 2)
  else if segments.length = 2 && (segments.headD []).contains '.' then segments.drop 1
  else segments

/-- A display name for a repository nobody named. -/
def nameFromUrl (url : String) : String :=
  let normalized := normalize url
  let segments := nameSegments ((normalized.toList.splitOn '/').filter (!·.isEmpty))
  let name := List.intercalate ['/'] segments
  if name.isEmpty then normalized else String.ofList name

end Repos

/-- A registered repository. -/
structure Repo where
  id : String
  url : String
  name : String
  workflowPath : Option String
  network : Option String
  enabled : Bool
  deriving Repr, DecidableEq

/-- A workflow object as app-lb serves it. -/
structure WorkflowObject where
  id : String
  repo : String
  path : String
  network : String
  /-- `secrets_prefix`. -/
  secretsPrefix? : Option String
  enabled : Bool
  deriving Repr, DecidableEq

/-- The cached objects, and whether a poll ever succeeded. -/
structure WorkflowSet where
  workflows : List WorkflowObject
  loaded : Bool
  deriving Repr, DecidableEq

namespace WorkflowSet

variable (objects : WorkflowSet)

/-- By id alone. -/
def find (id : String) : Option WorkflowObject := objects.workflows.find? (·.id = id)

/-- The enabled objects of a repository. -/
def forRepo (repo : String) : List WorkflowObject :=
  objects.workflows.filter fun w => w.enabled && Repos.sameRepo w.repo repo

variable {objects}

theorem id_of_find {id : String} {w : WorkflowObject} (h : objects.find id = some w) : w.id = id := by
  simpa using List.find?_some h

end WorkflowSet

namespace Secrets

/-- What a path segment may hold. -/
def isPathChar (c : Char) : Bool :=
  ('a' ≤ c && c ≤ 'z') || ('A' ≤ c && c ≤ 'Z') || ('0' ≤ c && c ≤ '9') || "-_.:@".toList.contains c

def sanitize (s : String) : String :=
  String.ofList (s.toList.map fun c => if isPathChar c then c else '-')

/-- `Secrets::prefix`. -/
def pathPrefix (workflowId environment : String) : String :=
  s!"ci/{sanitize workflowId}/{sanitize environment}"

/-- The prefix match of heyosecret's `list`: a path that is the prefix or lies under it. -/
def covers (pre path : String) : Bool :=
  path = pre || (pre.toList ++ ['/']).isPrefixOf path.toList

/-- The name a workflow refers to a path by. -/
def leafName (path pre : String) : Option String :=
  (Text.stripPrefix pre path).bind fun rest =>
    let rest := rest.toList.dropWhile (· = '/')
    if rest.isEmpty then none else some (String.ofList (Text.afterLast '/' rest))

/-- Whether `resolve` takes up a stored path. -/
def resolves (pre path : String) : Bool := covers pre path && (leafName path pre).isSome

end Secrets

/-- Where an object says its secrets are. -/
def WorkflowObject.secretsPrefix (w : WorkflowObject) (environment : String) : String :=
  match w.secretsPrefix? with
  | some p =>
    let declared := String.ofList (Text.trimEndMatches "/" p.toList)
    s!"{declared}/{environment}"
  | none => Secrets.pathPrefix w.id environment

end HeyoCi
