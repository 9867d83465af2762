import HeyoCi.Lib.Links
import HeyoCi.Submit.Tree

/-!
# A submitted tarball is unpacked inside its root

Every entry's path and the target it has are checked as they are written, and then the entry is made
where its path leads, through the links that earlier entries left.

* `ArchiveEntry`, `Tar`: what an archive has, and the crates that read and unpack it;
* `Tar.checkContained`, `Tar.checkEntry`, `Tar.extract`: the loop over the entries;
* `Tar.Unpacks`: what `unpack_in` is taken to do;
* `Tar.Kept`: what a round of the loop keeps; **`Tar.kept_extractAll`**: so every run keeps it;
* **`extract_contained`**: whatever is made, overwritten or linked to is inside the root, and nothing
  of an entry that escapes or of the entries behind it is unpacked;
* `plainTar`, `linkedEntries`: an archive whose entries go through each other.
-/

namespace HeyoCi

open FileTree

/-! ## The archive -/

inductive EntryKind where
  | file
  | dir
  | symlink
  | hardLink
  | other (typeflag : UInt8)
  deriving Repr, DecidableEq

/-- An entry, as the archive has it: its path and the target of a link may not be readable. -/
structure ArchiveEntry where
  kind : EntryKind
  path : Except String Bytes
  linkName : Except String (Option Bytes)
  content : Bytes

/-- The step a component of a path asks for: none, or `.`, or `..`, or a name. -/
def componentStep (component : Bytes) : FileTree.Step Bytes :=
  if component = [] ∨ component = [46] then .here
  else if component = [46, 46] then .up
  else .name component

/-- The components of a path, which `/` separates. -/
def components (path : Bytes) : Path Bytes where
  absolute := path.head? = some 47
  steps := (path.splitOn 47).map componentStep

/-- The path or the target of an entry has a root or a parent directory in it. -/
def ArchiveEntry.Escapes (entry : ArchiveEntry) : Prop :=
  (∃ path, entry.path = .ok path ∧ ¬ (components path).Downward) ∨
    ∃ link, entry.linkName = .ok (some link) ∧ ¬ (components link).Downward

/-- Something was done at a position. -/
inductive Effect where
  | create (pos : List Bytes)
  | overwrite (pos : List Bytes)
  | linkTo (pos : List Bytes)
  deriving Repr, DecidableEq

def Effect.pos : Effect → List Bytes
  | create pos | overwrite pos | linkTo pos => pos

/-- The files of the host with what was done to them. -/
structure Disk where
  files : Files Bytes Bytes
  effects : List Effect

/-- The crates that read an archive and unpack an entry of it. -/
structure Tar where
  entries : Bytes → Except String (List (Except String ArchiveEntry))
  unpackIn : ArchiveEntry → List Bytes → Files Bytes Bytes → Disk × Option String
  display : Bytes → String

/-! ## The loop -/

namespace Tar

variable (tar : Tar) (root : List Bytes)

/-- `check_contained`. -/
def checkContained (path : Bytes) : Except TriggerError Unit :=
  if (components path).Downward then .ok () else .error (.escapingEntry (tar.display path))

/-- The checks of an entry, and the path of one that passes them. -/
def checkEntry (entry : ArchiveEntry) : Except TriggerError Bytes := match entry.path with
  | .error e => .error (.badArchive e)
  | .ok path => match tar.checkContained path with
    | .error e => .error e
    | .ok () => match entry.linkName with
      | .ok (some link) => (tar.checkContained link).map fun _ => path
      | _ => .ok path

/-- The body of the loop. -/
def extractEntry : Except String ArchiveEntry → Disk → Disk × Option TriggerError
  | .error e, disk => (disk, some (.badArchive e))
  | .ok entry, disk => match tar.checkEntry entry with
    | .error e => (disk, some e)
    | .ok path =>
      let (made, failed) := tar.unpackIn entry root disk.files
      (⟨made.files, disk.effects ++ made.effects⟩,
        failed.map fun e => .badArchive s!"unpacking {tar.display path}: {e}")

def extractAll (entries : List (Except String ArchiveEntry)) (fs : Files Bytes Bytes) :
    Disk × Option TriggerError := Loop.untilError (tar.extractEntry root) entries ⟨fs, []⟩

/-- `extract`. -/
def extract (gz : Bytes) (fs : Files Bytes Bytes) : Disk × Option TriggerError :=
  match tar.entries gz with
  | .error e => (⟨fs, []⟩, some (.badArchive e))
  | .ok entries => tar.extractAll root entries fs

end Tar

/-- What `materialize` leaves of the root before it unpacks: a directory with nothing in it. -/
def emptied (fs : Files Bytes Bytes) (root : List Bytes) : Files Bytes Bytes := fun p =>
  if p = root then some .dir else if root <+: p then none else fs p

theorem tame_emptied (fs : Files Bytes Bytes) (root : List Bytes) : Tame (emptied fs root) root := by
  refine tame_of_empty (if_pos rfl) fun p hp hne => ?_
  rw [emptied, if_neg hne, if_pos hp]

/-! ## What `unpack_in` does -/

/-- `unpack_in` writes an entry at the root joined with its path, through the links that are there:
directories on the way are made as well, a hard link is made to what the root joined with its target
is, and a link that is made has the target of the entry, or the one of the link it is a hard link to. -/
structure Tar.Unpacks (tar : Tar) : Prop where
  written : ∀ entry root fs pos,
    Effect.create pos ∈ (tar.unpackIn entry root fs).1.effects ∨
      Effect.overwrite pos ∈ (tar.unpackIn entry root fs).1.effects →
    ∃ path, entry.path = .ok path ∧ Reached fs root (components path) pos
  linked : ∀ entry root fs pos, Effect.linkTo pos ∈ (tar.unpackIn entry root fs).1.effects →
    ∃ target, entry.linkName = .ok (some target) ∧ Reached fs root (components target) pos
  /-- What nothing was done to is as it was. -/
  rest : ∀ entry root fs pos, (∀ a ∈ (tar.unpackIn entry root fs).1.effects, a.pos ≠ pos) →
    (tar.unpackIn entry root fs).1.files pos = fs pos
  /-- A directory is never replaced. -/
  dirs : ∀ entry root fs pos, fs pos = some .dir →
    (tar.unpackIn entry root fs).1.files pos = some .dir
  links : ∀ entry root fs pos target,
    (tar.unpackIn entry root fs).1.files pos = some (.link target) →
    fs pos ≠ some (.link target) →
    ∃ link, entry.linkName = .ok (some link) ∧ (target = components link ∨
      ∃ source, Reached fs root (components link) source ∧ fs source = some (.link target))

/-! ## What the loop keeps -/

namespace Tar

variable {tar : Tar} {root : List Bytes}

theorem checkContained_ok_iff {path : Bytes} {u : Unit} :
    tar.checkContained path = .ok u ↔ (components path).Downward := by
  unfold checkContained
  split_ifs with h
  · exact iff_of_true rfl h
  · exact iff_of_false nofun h

theorem checkEntry_ok {entry : ArchiveEntry} {path : Bytes} (h : tar.checkEntry entry = .ok path) :
    entry.path = .ok path ∧ (components path).Downward ∧
      ∀ link, entry.linkName = .ok (some link) → (components link).Downward := by
  unfold checkEntry at h
  cases hp : entry.path with
  | error e =>
    rw [hp] at h
    cases h
  | ok p =>
    rw [hp] at h
    simp only at h
    cases hc : tar.checkContained p with
    | error e =>
      rw [hc] at h
      cases h
    | ok u =>
      rw [hc] at h
      simp only at h
      have hdown := checkContained_ok_iff.mp hc
      split at h
      · rename_i link hlink
        cases hl : tar.checkContained link with
        | error e =>
          rw [hl] at h
          cases h
        | ok u =>
          rw [hl] at h
          cases h
          refine ⟨rfl, hdown, fun link' hlink' => ?_⟩
          rw [hlink] at hlink'
          cases hlink'
          exact checkContained_ok_iff.mp hl
      · rename_i hno
        cases h
        exact ⟨rfl, hdown, fun link hlink => absurd hlink (hno link)⟩

variable (tar) in
theorem checkEntry_error {entry : ArchiveEntry} (h : entry.Escapes) :
    ∃ e, tar.checkEntry entry = .error e ∧ ((∃ path, entry.path = .ok path) →
      ∃ path, (entry.path = .ok path ∨ entry.linkName = .ok (some path)) ∧
        ¬ (components path).Downward ∧ e = .escapingEntry (tar.display path)) := by
  unfold checkEntry
  cases hp : entry.path with
  | error e => exact ⟨_, rfl, fun ⟨path, hpath⟩ => by cases hpath⟩
  | ok p =>
    simp only [checkContained]
    by_cases hdown : (components p).Downward
    · obtain ⟨path, hpath, hesc⟩ | ⟨link, hlink, hesc⟩ := h
      · rw [hp] at hpath
        cases hpath
        exact absurd hdown hesc
      · rw [if_pos hdown, hlink]
        simp only [if_neg hesc]
        exact ⟨_, rfl, fun _ => ⟨link, Or.inr rfl, hesc, rfl⟩⟩
    · rw [if_neg hdown]
      exact ⟨_, rfl, fun _ => ⟨p, Or.inl rfl, hdown, rfl⟩⟩

/-- What the loop keeps of a disk: the root is tame, what was done was done in it, and what is not in
it is as it was. -/
structure Kept (root : List Bytes) (fs : Files Bytes Bytes) (disk : Disk) : Prop where
  tame : Tame disk.files root
  effects : ∀ a ∈ disk.effects, root <+: a.pos
  rest : ∀ p, ¬ root <+: p → disk.files p = fs p

/-- What is done for an entry that passes the checks is done inside of a tame root. -/
theorem effects_unpackIn (hu : tar.Unpacks) {entry : ArchiveEntry} {path : Bytes}
    (hcheck : tar.checkEntry entry = .ok path) {fs : Files Bytes Bytes} (htame : Tame fs root) :
    ∀ a ∈ (tar.unpackIn entry root fs).1.effects, root <+: a.pos := by
  obtain ⟨hpath, hdown, hlinks⟩ := checkEntry_ok hcheck
  have hwritten : ∀ pos, Effect.create pos ∈ (tar.unpackIn entry root fs).1.effects ∨
      Effect.overwrite pos ∈ (tar.unpackIn entry root fs).1.effects → root <+: pos := by
    intro pos hpos
    obtain ⟨p, hp, hreach⟩ := hu.written entry root fs pos hpos
    rw [hpath] at hp
    cases hp
    exact htame.reached hdown hreach
  intro a ha
  cases a with
  | create pos => exact hwritten pos (Or.inl ha)
  | overwrite pos => exact hwritten pos (Or.inr ha)
  | linkTo pos =>
    obtain ⟨target, htarget, hreach⟩ := hu.linked entry root fs pos ha
    exact htame.reached (hlinks target htarget) hreach

theorem tame_unpackIn (hu : tar.Unpacks) {entry : ArchiveEntry} {path : Bytes}
    (hcheck : tar.checkEntry entry = .ok path) {fs : Files Bytes Bytes} (htame : Tame fs root) :
    Tame (tar.unpackIn entry root fs).1.files root := by
  obtain ⟨-, -, hlinks⟩ := checkEntry_ok hcheck
  refine htame.change (hu.dirs entry root fs) fun p target _ hmade hnew => ?_
  obtain ⟨link, hlink, rfl | ⟨source, hreach, hsource⟩⟩ := hu.links entry root fs p target hmade hnew
  · exact hlinks link hlink
  · -- a hard link to a link that is in the root already
    exact htame.links source (htame.reached (hlinks link hlink) hreach) target hsource

theorem extractEntry_refused {entry : ArchiveEntry} {e : TriggerError}
    (h : tar.checkEntry entry = .error e) (disk : Disk) :
    tar.extractEntry root (.ok entry) disk = (disk, some e) := by
  rw [extractEntry, h]

theorem extractEntry_passed {entry : ArchiveEntry} {path : Bytes}
    (h : tar.checkEntry entry = .ok path) (disk : Disk) :
    (tar.extractEntry root (.ok entry) disk).1 =
      ⟨(tar.unpackIn entry root disk.files).1.files,
        disk.effects ++ (tar.unpackIn entry root disk.files).1.effects⟩ := by
  rw [extractEntry, h]

/-- One round of the loop. -/
theorem kept_extractEntry (hu : tar.Unpacks) {fs : Files Bytes Bytes}
    (read : Except String ArchiveEntry) {disk : Disk} (h : Kept root fs disk) :
    Kept root fs (tar.extractEntry root read disk).1 := by
  cases read with
  | error e => exact h
  | ok entry =>
    cases hcheck : tar.checkEntry entry with
    | error e =>
      rw [extractEntry_refused hcheck]
      exact h
    | ok path =>
      rw [extractEntry_passed hcheck]
      have heffects := effects_unpackIn hu hcheck h.tame
      refine ⟨tame_unpackIn hu hcheck h.tame, fun a ha => ?_, fun p hp => ?_⟩
      · rcases List.mem_append.mp ha with hold | hnew
        · exact h.effects a hold
        · exact heffects a hnew
      · have hsame := hu.rest entry root disk.files p fun a ha hpos => hp (hpos ▸ heffects a ha)
        exact hsame.trans (h.rest p hp)

/-- **However many entries are unpacked, and however the loop ends.** -/
theorem kept_extractAll (hu : tar.Unpacks) {fs : Files Bytes Bytes} (htame : Tame fs root)
    (entries : List (Except String ArchiveEntry)) :
    Kept root fs (tar.extractAll root entries fs).1 :=
  Loop.untilError_inv (fun read _ _ h => kept_extractEntry hu read h)
    ⟨htame, fun _ ha => absurd ha List.not_mem_nil, fun _ _ => rfl⟩

/-- The loop ends at an entry that escapes, if it gets there. -/
theorem extractAll_escape {pre post : List (Except String ArchiveEntry)} {entry : ArchiveEntry}
    {e : TriggerError} (he : tar.checkEntry entry = .error e) (fs : Files Bytes Bytes) :
    tar.extractAll root (pre ++ .ok entry :: post) fs =
      ((tar.extractAll root pre fs).1, some ((tar.extractAll root pre fs).2.getD e)) := by
  unfold extractAll
  rw [Loop.untilError_append]
  cases (Loop.untilError (tar.extractEntry root) pre ⟨fs, []⟩).2 with
  | some e' => rfl
  | none =>
    rw [Loop.untilError_cons, extractEntry_refused he]
    rfl

end Tar

/-- **Extraction stays inside the root.** From a root with downward links only, whatever `extract`
creates, overwrites or links to is inside the root, nothing else is touched, and every link that is
left in the root leads into it; at the first entry that escapes it ends with an error, with nothing
unpacked but what is before that entry. -/
theorem extract_contained {tar : Tar} (hu : tar.Unpacks) {root : List Bytes}
    {fs : Files Bytes Bytes} (htame : Tame fs root) (gz : Bytes) :
    (∀ a ∈ (tar.extract root gz fs).1.effects, root <+: a.pos) ∧
    (∀ p, ¬ root <+: p → (tar.extract root gz fs).1.files p = fs p) ∧
    (∀ p q target, root <+: p → (tar.extract root gz fs).1.files p = some (.link target) →
      Leads (tar.extract root gz fs).1.files (target.start p.dropLast) target.steps q → root <+: q) ∧
    ∀ pre entry post, tar.entries gz = .ok (pre ++ .ok entry :: post) → entry.Escapes →
      ∃ e, tar.extract root gz fs = ((tar.extractAll root pre fs).1,
          some ((tar.extractAll root pre fs).2.getD e)) ∧
        ((∃ path, entry.path = .ok path) →
          ∃ path, (entry.path = .ok path ∨ entry.linkName = .ok (some path)) ∧
            ¬ (components path).Downward ∧ e = .escapingEntry (tar.display path)) := by
  have hkept : Tar.Kept root fs (tar.extract root gz fs).1 := by
    unfold Tar.extract
    cases tar.entries gz with
    | error e => exact ⟨htame, fun _ ha => absurd ha List.not_mem_nil, fun _ _ => rfl⟩
    | ok entries => exact Tar.kept_extractAll hu htame entries
  refine ⟨hkept.effects, hkept.rest, fun p q target hp hlink hl => ?_,
    fun pre entry post hread hesc => ?_⟩
  · exact hkept.tame.link_inside hp hlink hl
  · obtain ⟨e, he, hnamed⟩ := tar.checkEntry_error hesc
    refine ⟨e, ?_, hnamed⟩
    rw [Tar.extract, hread]
    exact Tar.extractAll_escape he fs

/-! ## An archive with links -/

/-- Where an entry is made: where there is nothing yet, in a directory that is there. -/
def placeFor (entry : ArchiveEntry) (root : List Bytes) (fs : Files Bytes Bytes) :
    Option (List Bytes) := match entry.path with
  | .error _ => none
  | .ok path => match (components path).steps.getLast? with
    | some (.name n) =>
      match pursue fs 40 ((components path).start root) (components path).steps.dropLast with
      | some dir => if fs dir = some .dir ∧ fs (dir ++ [n]) = none then some (dir ++ [n]) else none
      | none => none
    | _ => none

/-- What is made of an entry, and what it is linked to. -/
def kindFor (entry : ArchiveEntry) (root : List Bytes) (fs : Files Bytes Bytes) :
    Option (Kind Bytes Bytes × List Effect) := match entry.kind, entry.linkName with
  | .dir, _ => some (.dir, [])
  | .symlink, .ok (some link) => some (.link (components link), [])
  | .hardLink, .ok (some link) =>
    match pursue fs 40 ((components link).start root) (components link).steps with
    | some source => (fs source).map fun kind => (kind, [.linkTo source])
    | none => none
  | .file, _ => some (.file entry.content, [])
  | _, _ => none

/-- The entries of one archive, each made where there is nothing yet. -/
def plainTar (entries : List ArchiveEntry) : Tar where
  entries := fun _ => .ok (entries.map .ok)
  unpackIn := fun entry root fs => match placeFor entry root fs, kindFor entry root fs with
    | some pos, some (kind, links) =>
      (⟨fun p => if p = pos then some kind else fs p, .create pos :: links⟩, none)
    | _, _ => (⟨fs, []⟩, some "failed to unpack the entry")
  display := fun path => String.ofList (path.map fun b => Char.ofNat b.toNat)

theorem placeFor_some {entry : ArchiveEntry} {root pos : List Bytes} {fs : Files Bytes Bytes}
    (h : placeFor entry root fs = some pos) : fs pos = none ∧
      ∃ path, entry.path = .ok path ∧ Reached fs root (components path) pos := by
  unfold placeFor at h
  split at h
  · cases h
  · rename_i path hpath
    split at h
    · rename_i n hlast
      split at h
      · rename_i dir hpursue
        split_ifs at h with hfree
        cases h
        refine ⟨hfree.2, path, hpath, (components path).steps.length, ?_⟩
        rw [List.take_length, ← List.dropLast_append_getLast? _ hlast]
        exact leads_of_pursue hpursue (.stop dir n)
      · cases h
    · cases h

theorem kindFor_some {entry : ArchiveEntry} {root : List Bytes} {fs : Files Bytes Bytes}
    {kind : Kind Bytes Bytes} {links : List Effect} (h : kindFor entry root fs = some (kind, links)) :
    (∀ a ∈ links, ∃ target source, a = .linkTo source ∧ entry.linkName = .ok (some target) ∧
      Reached fs root (components target) source) ∧
    ∀ target, kind = .link target → ∃ link, entry.linkName = .ok (some link) ∧
      (target = components link ∨
        ∃ source, Reached fs root (components link) source ∧ fs source = some (.link target)) := by
  unfold kindFor at h
  split at h
  · cases h
    exact ⟨nofun, nofun⟩
  · rename_i link _ hlink
    cases h
    refine ⟨nofun, fun target htarget => ⟨link, hlink, Or.inl ?_⟩⟩
    cases htarget
    rfl
  · rename_i link _ hlink
    split at h
    · rename_i source hpursue
      have hreach : Reached fs root (components link) source := by
        refine ⟨(components link).steps.length, ?_⟩
        have := leads_of_pursue hpursue (.done source)
        rwa [List.append_nil, ← List.take_length (l := (components link).steps)] at this
      cases hs : fs source with
      | none =>
        rw [hs] at h
        cases h
      | some kind' =>
        rw [hs] at h
        cases h
        refine ⟨fun a ha => ?_, fun target htarget => ?_⟩
        · rw [List.mem_singleton] at ha
          exact ⟨link, source, ha, hlink, hreach⟩
        · rw [htarget] at hs
          exact ⟨link, hlink, Or.inr ⟨source, hreach, hs⟩⟩
    · cases h
  · cases h
    exact ⟨nofun, nofun⟩
  · cases h

theorem plainTar_unpackIn (entries : List ArchiveEntry) (entry : ArchiveEntry) (root : List Bytes)
    (fs : Files Bytes Bytes) :
    ((plainTar entries).unpackIn entry root fs).1 = ⟨fs, []⟩ ∨
      ∃ pos kind links, placeFor entry root fs = some pos ∧
        kindFor entry root fs = some (kind, links) ∧
        ((plainTar entries).unpackIn entry root fs).1 =
          ⟨fun p => if p = pos then some kind else fs p, .create pos :: links⟩ := by
  simp only [plainTar]
  cases hp : placeFor entry root fs with
  | none => exact Or.inl rfl
  | some pos =>
    cases hk : kindFor entry root fs with
    | none => exact Or.inl rfl
    | some made => exact Or.inr ⟨pos, made.1, made.2, rfl, rfl, rfl⟩

theorem unpacks_plainTar (entries : List ArchiveEntry) : (plainTar entries).Unpacks where
  written := by
    intro entry root fs pos h
    obtain heq | ⟨pos', kind, links, hplace, hkind, heq⟩ := plainTar_unpackIn entries entry root fs
    · rw [heq] at h
      exact absurd h (by simp)
    · rw [heq] at h
      have hlinks := (kindFor_some hkind).1
      simp only [List.mem_cons, Effect.create.injEq, reduceCtorEq, false_or] at h
      obtain (rfl | hmem) | hmem := h
      · exact (placeFor_some hplace).2
      · obtain ⟨_, _, heq, -⟩ := hlinks _ hmem
        cases heq
      · obtain ⟨_, _, heq, -⟩ := hlinks _ hmem
        cases heq
  linked := by
    intro entry root fs pos h
    obtain heq | ⟨pos', kind, links, -, hkind, heq⟩ := plainTar_unpackIn entries entry root fs
    · rw [heq] at h
      exact absurd h List.not_mem_nil
    · rw [heq] at h
      simp only [List.mem_cons, reduceCtorEq, false_or] at h
      obtain ⟨target, source, heq, hlink, hreach⟩ := (kindFor_some hkind).1 _ h
      cases heq
      exact ⟨target, hlink, hreach⟩
  rest := by
    intro entry root fs pos h
    obtain heq | ⟨pos', kind, links, -, -, heq⟩ := plainTar_unpackIn entries entry root fs
    · rw [heq]
    · rw [heq] at h ⊢
      exact if_neg fun hpos => h _ List.mem_cons_self hpos.symm
  dirs := by
    intro entry root fs pos h
    obtain heq | ⟨pos', kind, links, hplace, -, heq⟩ := plainTar_unpackIn entries entry root fs
    · rw [heq]
      exact h
    · rw [heq]
      refine (if_neg ?_).trans h
      rintro rfl
      rw [(placeFor_some hplace).1] at h
      cases h
  links := by
    intro entry root fs pos target h hnew
    obtain heq | ⟨pos', kind, links, -, hkind, heq⟩ := plainTar_unpackIn entries entry root fs
    · rw [heq] at h
      exact absurd h hnew
    · rw [heq] at h
      simp only at h
      split_ifs at h with hpos
      · cases h
        exact (kindFor_some hkind).2 target rfl
      · exact absurd h hnew

/-- A directory `a`, a link `l` to it, a file `l/x` and a hard link `h` to that, and an entry that
leaves the root. -/
def linkedEntries : List ArchiveEntry :=
  [⟨.dir, .ok [97], .ok none, []⟩, ⟨.symlink, .ok [108], .ok (some [97]), []⟩,
    ⟨.file, .ok [108, 47, 120], .ok none, [1]⟩, ⟨.hardLink, .ok [104], .ok (some [108, 47, 120]), []⟩,
    ⟨.symlink, .ok [107], .ok (some [46, 46]), []⟩]

/-- The file is made in `a`, and the hard link leads there. -/
theorem linked_entries_contained :
    ((plainTar linkedEntries).extract [[114]] [] (emptied (fun _ => none) [[114]])).1.effects =
      [.create [[114], [97]], .create [[114], [108]], .create [[114], [97], [120]],
        .create [[114], [104]], .linkTo [[114], [97], [120]]] ∧
    ((plainTar linkedEntries).extract [[114]] [] (emptied (fun _ => none) [[114]])).2 =
      some (.escapingEntry "..") ∧
    ∀ a ∈ ((plainTar linkedEntries).extract [[114]] [] (emptied (fun _ => none) [[114]])).1.effects,
      [[114]] <+: a.pos :=
  ⟨by decide, by decide,
    (extract_contained (unpacks_plainTar linkedEntries) (tame_emptied _ _) []).1⟩

end HeyoCi
