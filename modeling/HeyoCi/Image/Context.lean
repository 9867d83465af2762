import Mathlib.Data.List.Sort
import HeyoCi.Lib.FileTree
import HeyoCi.Plan

/-!
# The files an image is built from

The build of an image hashes and ships a Dockerfile and every file of a context directory, both
named by paths in the submitted tree.

* `VmBlock`, `VmBlock.validate`: `vm:` of a job, and the checks it is parsed with;
* `Host`, `Opened`: the files of the host, and what was read with the way to it;
* `Host.read`, `Host.readDir`: a path is followed through whatever links are on it;
* `walk`: the files below the context; **`walk_ok_iff`**: it follows no link;
* `contextFiles`, `planReads`, `planFor`: what `plan_for` reads, and what it makes of it.
-/

namespace HeyoCi

open FileTree

abbrev Bytes := List UInt8

/-! ## The block -/

inductive SandboxDriver where
  | firecracker
  | kvm
  | libvirt
  deriving Repr, DecidableEq

def SandboxDriver.debug : SandboxDriver → String
  | firecracker => "Firecracker"
  | kvm => "Kvm"
  | libvirt => "Libvirt"

/-- The directory of a Dockerfile, unless another one is named. -/
def ImageBuild.contextDir (build : ImageBuild) : String := match build.context with
  | some c => c
  | none => match Text.splitLast ['/'] build.dockerfile.toList with
    | some (dir, _) => String.ofList dir
    | none => "."

/-- `vm:` of a job, whole. -/
structure VmBlock extends VmSpec where
  driver : SandboxDriver
  sizeClass : Option String
  diskSizeGb : Option Nat
  envVars : List (String × String)
  setupHooks : List String
  /-- Files whose contents are part of the fingerprint. -/
  cacheKeyFiles : List String
  ttlSeconds : Option Nat
  deriving Repr, DecidableEq

inductive VmSpecError where
  | unsupportedDriver
  | zeroDisk
  | zeroTtl
  | invalidEnvKey (key : String)
  | escapingCacheKeyFile (path : String)
  | imageAndBuild
  | escapingBuildPath (path : String)
  | emptyDockerfilePath
  | zeroImageSize
  deriving Repr, DecidableEq

/-- The segments of a path. -/
def segments (path : String) : List String := (path.toList.splitOn '/').map String.ofList

/-- An absolute path, or one with a `..`. -/
def escaping (path : String) : Bool := path.toList.head? = some '/' || (segments path).contains ".."

/-- A name the shell takes. -/
def envKey (key : String) : Bool := !key.isEmpty && key.toList.all fun c => c.isAlphanum || c = '_'

/-- The checks of `vm.build`. -/
def ImageBuild.validate (build : ImageBuild) (image : Option String) : Except VmSpecError Unit :=
  if image.isSome then .error .imageAndBuild
  else match [build.dockerfile, build.contextDir].find? escaping with
  | some path => .error (.escapingBuildPath path)
  | none => if (Text.trim build.dockerfile).isEmpty then .error .emptyDockerfilePath
    else if build.sizeMb = some 0 then .error .zeroImageSize
    else .ok ()

/-- `VmSpec::validate`. -/
def VmBlock.validate (vm : VmBlock) : Except VmSpecError Unit :=
  if vm.driver = .libvirt then .error .unsupportedDriver
  else match vm.build.elim (.ok ()) fun build => build.validate vm.image with
  | .error e => .error e
  | .ok () => if vm.diskSizeGb = some 0 then .error .zeroDisk
    else if vm.ttlSeconds = some 0 then .error .zeroTtl
    else match vm.envVars.find? fun kv => !envKey kv.1 with
      | some (key, _) => .error (.invalidEnvKey key)
      | none => match vm.cacheKeyFiles.find? escaping with
        | some path => .error (.escapingCacheKeyFile path)
        | none => .ok ()

/-! ## Paths -/

/-- The step a segment of a path asks for. -/
def segmentStep (segment : String) : FileTree.Step String :=
  if segment = "" ∨ segment = "." then .here else if segment = ".." then .up else .name segment

/-- The steps a path takes. -/
def parsePath (path : String) : Path String where
  absolute := path.toList.head? = some '/'
  steps := (segments path).map segmentStep

theorem up_notMem_parsePath {path : String} (h : escaping path = false) :
    FileTree.Step.up ∉ (parsePath path).steps := by
  intro hmem
  obtain ⟨seg, hseg, hstep⟩ := List.mem_map.mp hmem
  rw [escaping, Bool.or_eq_false_iff] at h
  unfold segmentStep at hstep
  split_ifs at hstep with h₁ h₂
  rw [h₂] at hseg
  exact absurd (List.contains_iff_mem.mpr hseg) (by rw [h.2]; exact Bool.false_ne_true)

theorem absolute_parsePath {path : String} (h : escaping path = false) :
    (parsePath path).absolute = false := by
  rw [escaping, Bool.or_eq_false_iff] at h
  exact h.1

/-- How the host words an error. -/
def errorText : PathError → String
  | .notFound => "No such file or directory (os error 2)"
  | .notDir => "Not a directory (os error 20)"
  | .isDir => "Is a directory (os error 21)"
  | .loop => "Too many levels of symbolic links (os error 40)"
  | .denied => "Permission denied (os error 13)"
  | .escapes => "Invalid cross-device link (os error 18)"

/-- The files of the host, and the positions the server may not read. -/
structure Host where
  root : FileTree.Node String Bytes
  denied : List String → Bool

/-- A file that was read, and the way to it. -/
structure Opened where
  spot : Spot String
  content : Bytes

/-- How many links the host follows for one path. -/
def maxLinks : Nat := 40

namespace Host

variable (h : Host) (ws : List String)

/-- Where a path leads from a workspace, by allowed positions. -/
def leads (allowed : List String → Bool) (path : Path String) :
    Except PathError (Spot String) :=
  if path.absolute
  then ((⟨ws, []⟩ : Spot String).go allowed []).bind fun s =>
    resolve h.root allowed maxLinks s path.steps
  else resolve h.root allowed maxLinks ⟨ws, []⟩ path.steps

/-- Where a path leads, and what is there. -/
def find (path : Path String) : Except PathError (Spot String × FileTree.Node String Bytes) :=
  (h.leads ws (fun _ => true) path).bind fun s => match h.root.at s.pos with
    | some node => .ok (s, node)
    | none => .error .notFound

/-- `fs::read`. -/
def read (path : Path String) : Except PathError Opened := (h.find ws path).bind fun
  | (s, .file content) => if h.denied s.pos then .error .denied else .ok ⟨s, content⟩
  | (_, .dir _) => .error .isDir
  | (_, .link _) => .error .loop

/-- `fs::read_dir`. -/
def readDir (path : Path String) :
    Except PathError (Spot String × List (String × FileTree.Node String Bytes)) :=
  (h.find ws path).bind fun
  | (s, .dir entries) => if h.denied s.pos then .error .denied else .ok (s, entries)
  | _ => .error .notDir

/-- `Path::is_file`. -/
def isFile (path : Path String) : Bool := match h.find ws path with
  | .ok (_, .file _) => true
  | _ => false

end Host

/-- `String::from_utf8`. -/
def decode (content : Bytes) : Option String := String.fromUTF8? ⟨content.toArray⟩

/-- `fs::read_to_string`, with the file. -/
def Host.readToString (h : Host) (ws : List String) (path : Path String) :
    Except String (Opened × String) := match h.read ws path with
  | .error e => .error (errorText e)
  | .ok o => match decode o.content with
    | some text => .ok (o, text)
    | none => .error "stream did not contain valid UTF-8"

/-! ## The context -/

inductive ImageError where
  | noDockerfile (path reason : String)
  | unreadableContext (path reason : String)
  | pack (reason : String)
  deriving Repr, DecidableEq

/-- `rel_of`: the names that lead from the context to a file. -/
def relOf (rel : List String) : String :=
  String.ofList (("/".intercalate rel).toList.map fun c => if c = '\\' then '/' else c)

mutual

/-- An entry of a directory, at the names that lead to it from the context: a link is passed over, a
directory is walked, a file is read. -/
def walkEntry (h : Host) (s : Spot String) (rel : List String) :
    FileTree.Node String Bytes → Except ImageError (List (String × Opened))
  | .link _ => .ok []
  | .dir entries =>
    if h.denied (s.pos ++ rel) then .error (.unreadableContext (relOf rel) (errorText .denied))
    else walkEntries h s rel entries
  | .file content =>
    if h.denied (s.pos ++ rel) then .error (.unreadableContext (relOf rel) (errorText .denied))
    else .ok [(relOf rel, ⟨s.down rel, content⟩)]

def walkEntries (h : Host) (s : Spot String) (rel : List String) :
    List (String × FileTree.Node String Bytes) → Except ImageError (List (String × Opened))
  | [] => .ok []
  | (n, node) :: entries => (walkEntry h s (rel ++ [n]) node).bind fun files =>
    (walkEntries h s rel entries).map (files ++ ·)

end

/-- `walk` of a context. -/
def walk (h : Host) (s : Spot String) (context : FileTree.Node String Bytes) :
    Except ImageError (List (String × Opened)) := walkEntry h s [] context

/-- The server may not read a node: a link it does not try. -/
def blocked (h : Host) (pos : List String) : FileTree.Node String Bytes → Bool
  | .link _ => false
  | _ => h.denied pos

/-- What `walk` makes of a node. -/
def walked (s : Spot String) (rel : List String) :
    FileTree.Node String Bytes → Option (String × Opened)
  | .file content => some (relOf rel, ⟨s.down rel, content⟩)
  | _ => none

mutual

theorem walkEntry_ok_iff (h : Host) (s : Spot String) (rel : List String)
    (node : FileTree.Node String Bytes) (out : List (String × Opened)) : walkEntry h s rel node = .ok out ↔
      (blocked h (s.pos ++ rel) node = false ∧
        ∀ x ∈ node.under, blocked h (s.pos ++ (rel ++ x.1)) x.2 = false) ∧
      out = (walked s rel node).toList ++ node.under.filterMap fun x => walked s (rel ++ x.1) x.2 := by
  match node with
  | .link target =>
    rw [walkEntry, under_link, Except.ok.injEq]
    exact ⟨fun hout => ⟨⟨rfl, nofun⟩, hout.symm⟩, fun hout => hout.2.symm⟩
  | .dir entries =>
    rw [walkEntry, under_dir]
    cases hd : h.denied (s.pos ++ rel) with
    | true => simp [blocked, hd]
    | false =>
      rw [if_neg Bool.false_ne_true, walkEntries_ok_iff h s rel entries out]
      simp [blocked, hd, walked]
  | .file content =>
    rw [walkEntry, under_file]
    cases hd : h.denied (s.pos ++ rel) with
    | true => simp [blocked, hd]
    | false =>
      rw [if_neg Bool.false_ne_true, Except.ok.injEq]
      exact ⟨fun hout => ⟨⟨hd, fun _ hx => absurd hx List.not_mem_nil⟩, hout.symm⟩,
        fun hout => hout.2.symm⟩

theorem walkEntries_ok_iff (h : Host) (s : Spot String) (rel : List String)
    (entries : List (String × FileTree.Node String Bytes)) (out : List (String × Opened)) :
    walkEntries h s rel entries = .ok out ↔
      (∀ x ∈ entriesUnder entries, blocked h (s.pos ++ (rel ++ x.1)) x.2 = false) ∧
      out = (entriesUnder entries).filterMap fun x => walked s (rel ++ x.1) x.2 := by
  match entries with
  | [] =>
    rw [walkEntries, entriesUnder, Except.ok.injEq]
    exact ⟨fun hout => ⟨fun _ hx => absurd hx List.not_mem_nil, hout.symm⟩, fun hout => hout.2.symm⟩
  | (n, node) :: entries =>
    have hnode := walkEntry_ok_iff h s (rel ++ [n]) node
    have hrest := walkEntries_ok_iff h s rel entries
    have hsplit : walkEntries h s rel ((n, node) :: entries) = .ok out ↔
        ∃ files rest, walkEntry h s (rel ++ [n]) node = .ok files ∧
          walkEntries h s rel entries = .ok rest ∧ out = files ++ rest := by
      rw [walkEntries]
      cases walkEntry h s (rel ++ [n]) node with
      | error e => simp [Except.bind]
      | ok files =>
        cases walkEntries h s rel entries with
        | error e => simp [Except.bind, Except.map]
        | ok rest => simp [Except.bind, Except.map, eq_comm]
    have hbelow : ∀ x : List String × FileTree.Node String Bytes,
        rel ++ n :: x.1 = rel ++ [n] ++ x.1 := by
      intro x
      simp
    rw [hsplit, entriesUnder]
    simp only [hnode, hrest, List.forall_mem_append, List.forall_mem_cons, List.forall_mem_map,
      List.filterMap_append, List.filterMap_cons, List.filterMap_map, Function.comp_def, hbelow]
    constructor
    · rintro ⟨_, _, ⟨hn, rfl⟩, ⟨he, rfl⟩, rfl⟩
      refine ⟨⟨hn, he⟩, ?_⟩
      cases walked s (rel ++ [n]) node <;> rfl
    · rintro ⟨⟨hn, he⟩, rfl⟩
      refine ⟨_, _, ⟨hn, rfl⟩, ⟨he, rfl⟩, ?_⟩
      cases walked s (rel ++ [n]) node <;> rfl

end

/-- **`walk` reads the files below the context and nothing else, no link followed**, if it can read
all that is there. -/
theorem walk_ok_iff {h : Host} {s : Spot String}
    {entries : List (String × FileTree.Node String Bytes)} {out : List (String × Opened)} : walk h s (.dir entries) = .ok out ↔
      (h.denied s.pos = false ∧
        ∀ x ∈ entriesUnder entries, blocked h (s.pos ++ x.1) x.2 = false) ∧
      out = (entriesUnder entries).filterMap fun x => walked s x.1 x.2 := by
  rw [walk, walkEntry_ok_iff]
  simp [blocked, walked, under_dir]

/-! ## The plan of a build -/

/-- The files of the context, if it is a directory. -/
def contextFiles (h : Host) (ws : List String) (build : ImageBuild) :
    Except ImageError (List (String × Opened)) :=
  match h.find ws (parsePath build.contextDir) with
  | .ok (s, .dir entries) => walk h s (.dir entries)
  | _ => .ok []

/-- What `plan_for` reads: the Dockerfile and, by their names in it, the files of the context. -/
def planReads (h : Host) (ws : List String) (build : ImageBuild) :
    Except ImageError ((Opened × String) × List (String × Opened)) :=
  match h.readToString ws (parsePath build.dockerfile) with
  | .error reason => .error (.noDockerfile build.dockerfile reason)
  | .ok dockerfile => (contextFiles h ws build).map fun files =>
    (dockerfile, List.insertionSort (fun f g => f.1 ≤ g.1) files)

/-- The crates that hash, encode and pack. -/
structure Crates where
  sha256 : Bytes → Bytes
  vmJson : VmBlock → Except String Bytes
  packContext : List (String × Bytes) → Except String Bytes

def utf8 (s : String) : Bytes := s.toUTF8.toList

/-- Two digits for every byte. -/
def hex (content : Bytes) : String :=
  String.ofList (content.flatMap fun b => [Nat.digitChar (b.toNat / 16), Nat.digitChar (b.toNat % 16)])

/-- The characters of a digest that are kept. -/
def fingerprintLen : Nat := 12

def Crates.digest (c : Crates) (hashed : Bytes) : String :=
  String.ofList ((hex (c.sha256 hashed)).toList.take fingerprintLen)

structure BuildPlan where
  name : String
  dockerfile : String
  contextTarGz : Option Bytes
  deriving Repr

/-- `plan_for`. -/
def planFor (c : Crates) (h : Host) (ws : List String) (vm : VmBlock) (build : ImageBuild) :
    Except ImageError BuildPlan := (planReads h ws build).bind fun ((_, dockerfile), files) =>
  let size := build.sizeMb.getD 0
  let name := "ci-img-" ++ c.digest (utf8 "ci-image-v2\x00" ++ utf8 dockerfile ++ [0] ++
    utf8 (vm.driver.debug ++ "\x00" ++ s!"{size}" ++ "\x00") ++
      files.flatMap fun (rel, o) => utf8 rel ++ [0] ++ c.sha256 o.content)
  if files.isEmpty then .ok ⟨name, dockerfile, none⟩
  else match c.packContext (files.map fun (rel, o) => (rel, o.content)) with
    | .error reason => .error (.pack reason)
    | .ok packed => .ok ⟨name, dockerfile, some packed⟩

end HeyoCi
