import HeyoCi.Image.Context
import HeyoCi.Lib.Loop
import HeyoCi.Submit.Objects

/-!
# The other files a submit is read from

Besides the files of an image build, the server reads the files that `cache_key_files` names, for the
fingerprint of a VM, and the workflow files.

* `fingerprintReads`, `fingerprint`: the files the fingerprint hashes, and the fingerprint;
* `matchesPattern`, `workflowReads`, `findWorkflows`: the workflow files of a pattern.
-/

namespace HeyoCi

open FileTree

/-! ## The fingerprint -/

inductive PoolError where
  | encode (reason : String)
  | escapingPath (path : String)
  | unreadableFile (path reason : String)
  deriving Repr, DecidableEq

/-- A file of the list, or none where nothing is there. No path with a NUL is passed to the host. -/
def keyFile (h : Host) (ws : List String) (rel : String) :
    Except PoolError (List (String × Option Opened)) :=
  if escaping rel then .error (.escapingPath rel)
  else if '\x00' ∈ rel.toList then
    .error (.unreadableFile rel "file name contained an unexpected NUL byte")
  else match h.read ws (parsePath rel) with
    | .ok o => .ok [(rel, some o)]
    | .error .notFound => .ok [(rel, none)]
    | .error e => .error (.unreadableFile rel (errorText e))

/-- The files in the order they are hashed. -/
def VmBlock.keyFiles (vm : VmBlock) : List String :=
  (vm.cacheKeyFiles.insertionSort (· ≤ ·)).destutter (· ≠ ·)

/-- What `fingerprint` hashes of the tree, and the error that ends it. -/
def fingerprintReads (h : Host) (ws : List String) (vm : VmBlock) :
    List (String × Option Opened) × Option PoolError := Loop.collect (keyFile h ws) vm.keyFiles

/-- `fingerprint`. -/
def fingerprint (c : Crates) (h : Host) (ws : List String) (vm : VmBlock) : Except PoolError String :=
  match c.vmJson { vm with cacheKeyFiles := [] } with
  | .error e => .error (.encode e)
  | .ok json => match fingerprintReads h ws vm with
    | (_, some e) => .error e
    | (hashed, none) => .ok (c.digest (json ++ hashed.flatMap fun (rel, file) =>
        utf8 rel ++ [0] ++ match file with
          | some o => c.sha256 o.content
          | none => utf8 "\x00ABSENT"))

/-! ## The workflow files -/

/-- `*.yml`, `build.*`, `*`, or a literal name. -/
def matchesPattern (name pattern : String) : Bool :=
  match Text.splitOnce '*' pattern.toList with
  | none => name = pattern
  | some (before, after) => before.length + after.length ≤ name.toList.length &&
      before.isPrefixOf name.toList && after.isSuffixOf name.toList

inductive TriggerError where
  | badArchive (reason : String)
  | escapingEntry (path : String)
  | io (path reason : String)
  deriving Repr, DecidableEq

/-- A pattern without the white space around it and the `./` before it. -/
def trimPattern (pattern : String) : String :=
  let cs := (Text.trim pattern).toList
  String.ofList (Text.dropAll "./".toList cs.length cs)

/-- The directory and the file part of a pattern. -/
def splitPattern (pattern : String) : String × String :=
  match Text.splitLast ['/'] pattern.toList with
  | some (dir, file) => (String.ofList dir, String.ofList file)
  | none => ("", pattern)

/-- The path of an entry of a directory. -/
def entryPath (dir name : String) : Path String :=
  { parsePath dir with steps := (parsePath dir).steps ++ [.name name] }

/-- How the path of an entry is written. -/
def entryText (ws : List String) (dir name : String) : String :=
  "/" ++ "/".intercalate (ws ++ (if dir.isEmpty then [] else [dir]) ++ [name])

/-- An entry of the directory, if it is a workflow file. -/
def workflowEntry (h : Host) (ws : List String) (dir file name : String) :
    Except TriggerError (List (String × Opened × String)) :=
  if !matchesPattern name file || !h.isFile ws (entryPath dir name) then .ok []
  else match h.readToString ws (entryPath dir name) with
    | .error reason => .error (.io (entryText ws dir name) reason)
    | .ok found => .ok [(if dir.isEmpty then name else s!"{dir}/{name}", found)]

/-- What `find_workflows` reads. -/
def workflowReads (h : Host) (ws : List String) (pattern : String) :
    Except TriggerError (List (String × Opened × String)) :=
  let pattern := trimPattern pattern
  if escaping pattern then .error (.escapingEntry pattern)
  else
    let (dir, file) := splitPattern pattern
    match h.readDir ws (parsePath dir) with
    | .error _ => .ok []
    | .ok (_, entries) =>
      match Loop.collect (workflowEntry h ws dir file) (entries.map (·.1)) with
      | (_, some e) => .error e
      | (found, none) => .ok (List.insertionSort (fun f g => f.1 ≤ g.1) found)

/-- `find_workflows`. -/
def findWorkflows (h : Host) (ws : List String) (pattern : String) :
    Except TriggerError (List (String × String)) :=
  (workflowReads h ws pattern).map fun found => found.map fun (rel, _, text) => (rel, text)

end HeyoCi
