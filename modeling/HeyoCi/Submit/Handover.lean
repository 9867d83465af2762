import HeyoCi.Ids.Operations
import HeyoCi.Image.Hashes
import HeyoCi.Lib.Actors
import HeyoCi.Lib.Base64
import HeyoCi.Lib.Machine
import HeyoCi.Steps.Upload
import HeyoCi.Submit.Extract

/-!
# What was submitted is what a run is built from

The bytes of a submit are kept beside the tree they are unpacked to, under the id of the run; a second
run of a submit gets a copy under its own id, and a job reads what is there when it is checked out.

* `SourceFormat.parse`, `Workspace`, `Workspace.storedSource`, `decodeSource`: the parts of a submit;
* `Handover`, `Site`, `Submitting`: a directory of workspaces and the submits at work in it;
* `Stage`, `Handover.turn`: the calls of `materialize`, each of which may fail;
* `Handover.machine`: any number of submits, call by call, where no id is minted twice;
* `Owns`, `owns_unique`: the positions of an id; `Holds`, `Site.Inv`: what the calls keep;
* **`source_handed_over`**: a run is checked out with the bytes that were submitted for it.
-/

namespace HeyoCi

open FileTree

/-! ## Formats and archives -/

namespace SourceFormat

/-- `SourceFormat::parse`. -/
def parse (raw : String) : Option SourceFormat :=
  if Text.trim raw = "tar.gz" then some .tarGz
  else if Text.trim raw = "git-bundle" then some .gitBundle
  else none

/-- `SourceFormat::as_str`. -/
def asStr : SourceFormat → String
  | .tarGz => "tar.gz"
  | .gitBundle => "git-bundle"

/-- `SourceFormat::extension`. -/
def extension : SourceFormat → String
  | .tarGz => "tar.gz"
  | .gitBundle => "bundle"

/-- The format whose file `materialize` removes. -/
def other : SourceFormat → SourceFormat
  | .tarGz => .gitBundle
  | .gitBundle => .tarGz

theorem parse_asStr (format : SourceFormat) : parse format.asStr = some format := by
  cases format <;> decide

end SourceFormat

/-- The submitted tree. -/
structure SourceArchive where
  format : String
  contentBase64 : String
  deriving Repr, DecidableEq

/-- Why a source is refused before anything is written. -/
inductive SourceError where
  | unsupportedFormat (format : String)
  | badArchive (reason : String)
  | archiveTooLarge (bytes max : Nat)
  deriving Repr, DecidableEq

/-- The first part of `materialize`, by what the crate says of a text that is not base64. -/
def decodeSource (base64Error : String → String) (source : SourceArchive) (max : Nat) :
    Except SourceError (SourceFormat × Bytes) :=
  match SourceFormat.parse source.format with
  | none => .error (.unsupportedFormat source.format)
  | some format => match Base64.decode source.contentBase64.toList with
    | none => .error (.badArchive s!"not valid base64: {base64Error source.contentBase64}")
    | some bytes =>
      if max < bytes.length then .error (.archiveTooLarge bytes.length max) else .ok (format, bytes)

theorem decodeSource_ok_iff {base64Error : String → String} {source : SourceArchive} {max : Nat}
    {format : SourceFormat} {bytes : Bytes} :
    decodeSource base64Error source max = .ok (format, bytes) ↔
      SourceFormat.parse source.format = some format ∧
      Base64.decode source.contentBase64.toList = some bytes ∧ bytes.length ≤ max := by
  unfold decodeSource
  cases SourceFormat.parse source.format with
  | none => simp
  | some f =>
    cases Base64.decode source.contentBase64.toList with
    | none => simp
    | some bs =>
      dsimp only
      by_cases hlen : max < bs.length
      · rw [if_pos hlen]
        simp only [reduceCtorEq, Option.some.injEq, false_iff, not_and]
        rintro rfl rfl
        omega
      · rw [if_neg hlen]
        simp only [Except.ok.injEq, Prod.mk.injEq, Option.some.injEq]
        refine ⟨fun ⟨hf, hb⟩ => ⟨hf, hb, ?_⟩, fun ⟨hf, hb, _⟩ => ⟨hf, hb⟩⟩
        rw [← hb]
        omega

/-! ## Workspaces -/

/-- Where a run's tree and the bytes it came from live. -/
structure Workspace where
  root : List Bytes
  tarball : List Bytes
  bundle : List Bytes
  deriving Repr, DecidableEq

namespace Workspace

/-- `Workspace::for_run`, in the directory at a position. -/
def forRun (dir : List Bytes) (runId : String) : Workspace where
  root := dir ++ [utf8 runId]
  tarball := dir ++ [utf8 s!"{runId}.{SourceFormat.tarGz.extension}"]
  bundle := dir ++ [utf8 s!"{runId}.{SourceFormat.gitBundle.extension}"]

/-- `Workspace::path_for`. -/
def pathFor (ws : Workspace) : SourceFormat → List Bytes
  | .tarGz => ws.tarball
  | .gitBundle => ws.bundle

/-- `Workspace::stored_source`. No link is ever made where a source is kept. -/
def storedSource (ws : Workspace) (files : Files Bytes Bytes) : Option (SourceFormat × List Bytes) :=
  [SourceFormat.gitBundle, .tarGz].findSome? fun format =>
    if (files (ws.pathFor format)).isSome then some (format, ws.pathFor format) else none

/-- The source that is kept is found, if there is none of the other format. -/
theorem storedSource_eq {ws : Workspace} {files : Files Bytes Bytes} {format : SourceFormat}
    (hhere : (files (ws.pathFor format)).isSome = true) (hother : files (ws.pathFor format.other) = none) :
    ws.storedSource files = some (format, ws.pathFor format) := by
  unfold storedSource
  cases format with
  | gitBundle => rw [List.findSome?_cons, if_pos hhere]
  | tarGz =>
    have hbundle : ¬ (files (ws.pathFor .gitBundle)).isSome = true := by
      change files (ws.pathFor .gitBundle) = none at hother
      rw [hother]
      exact Bool.false_ne_true
    rw [List.findSome?_cons, if_neg hbundle, List.findSome?_cons, if_pos hhere]

end Workspace

/-! ## The calls of a submit -/

/-- Where `materialize` is. -/
inductive Stage where
  | clear
  | makeRoot
  | write
  | dropOther
  | unpack (entries : List (Except String ArchiveEntry))
  | clone

/-- What a submit is at. -/
inductive Doing where
  /-- The bytes of a format are put under an id. -/
  | materialize (id : String) (format : SourceFormat) (bytes : Bytes) (stage : Stage)
  /-- The tree of the next run is there. -/
  | ready (id : String)
  /-- It is between two workflow files. -/
  | between
  /-- The first run's source is read for another run. -/
  | reading (id : String) (format : SourceFormat) (path : List Bytes)

/-- The id that a submit has minted last, until the run is recorded. -/
def Doing.current : Doing → Option String
  | .materialize id .. | .ready id | .reading id .. => some id
  | .between => none

/-- A submit at work. -/
structure Submitting where
  request : SourceArchive
  seed : String
  doing : Doing

/-- The files, the ids that were minted, the submits at work and the runs with what was submitted for
each. -/
structure Site where
  files : Files Bytes Bytes
  minted : List String
  submits : List Submitting
  runs : List (String × SourceArchive)

/-- How a call ends. -/
inductive Ending where
  | ok
  /-- It fails, and leaves something half done. -/
  | failed (left : Edits Bytes Bytes)
  /-- `git` is still at it. -/
  | part (made : Edits Bytes Bytes)

/-- A directory of workspaces, and what the server reads archives and texts with. -/
structure Handover where
  dir : List Bytes
  maxBytes : Nat
  /-- The limit is a number of the machine. -/
  max_lt : maxBytes < 2 ^ 64
  tar : Tar
  base64Error : String → String

namespace Handover

variable (h : Handover)

def workspace (id : String) : Workspace := .forRun h.dir id

/-- What a submit goes on with, after the other format's file was removed. -/
def unpacking (id : String) (format : SourceFormat) (bytes : Bytes) : Option Doing := match format with
  | .gitBundle => some (.materialize id format bytes .clone)
  | .tarGz => match h.tar.entries bytes with
    | .error _ => none
    | .ok entries => some (.materialize id format bytes (.unpack entries))

/-- A call of `materialize`: what it leaves, and what the submit goes on with if it does not end
there. -/
def turn (files : Files Bytes Bytes) (id : String) (format : SourceFormat) (bytes : Bytes) :
    Stage → Ending → Option (Files Bytes Bytes × Option Doing)
  -- `remove_dir_all` is not called where nothing is
  | .clear, .ok => some (fun p => if (h.workspace id).root <+: p then none else files p,
      some (.materialize id format bytes .makeRoot))
  | .makeRoot, .ok => some (fun p => if p = (h.workspace id).root then some .dir else files p,
      some (.materialize id format bytes .write))
  | .write, .ok =>
    some (fun p => if p = (h.workspace id).pathFor format then some (.file bytes) else files p,
      some (.materialize id format bytes .dropOther))
  | .write, .failed left =>
    if left.Under ((h.workspace id).pathFor format) then some (left.apply files, none) else none
  | .dropOther, .ok =>
    some (fun p => if p = (h.workspace id).pathFor format.other then none else files p,
      h.unpacking id format bytes)
  -- what is wrong there is ignored
  | .dropOther, .failed _ => some (files, h.unpacking id format bytes)
  | .unpack [], .ok | .clone, .ok => some (files, some (.ready id))
  | .unpack (entry :: entries), .ok =>
    let (disk, failed) := h.tar.extractEntry (h.workspace id).root entry ⟨files, []⟩
    some (disk.files, if failed.isSome then none else
      some (.materialize id format bytes (.unpack entries)))
  | .clear, .failed left | .makeRoot, .failed left | .clone, .failed left =>
    if left.Under (h.workspace id).root then some (left.apply files, none) else none
  | .clone, .part made => if made.Under (h.workspace id).root then
      some (made.apply files, some (.materialize id format bytes .clone)) else none
  | _, _ => none

/-- The second half of `copy_tree`, from what was read. -/
def copied (id : String) (format : SourceFormat) (bytes : Bytes) : Option Doing :=
  match decodeSource h.base64Error ⟨format.asStr, String.ofList (Base64.encode bytes)⟩ (2 ^ 64 - 1) with
  | .error _ => none
  | .ok (format, bytes) => some (.materialize id format bytes .clear)

/-- The next call of a submit. -/
def call (files : Files Bytes Bytes) : Doing → Ending → Option (Files Bytes Bytes × Option Doing)
  | .materialize id format bytes stage, ending => h.turn files id format bytes stage ending
  | .reading id format path, .ok => match files path with
    | some (.file bytes) => some (files, h.copied id format bytes)
    | _ => none
  | .reading .., .failed _ => some (files, none)
  | _, _ => none

end Handover

/-! ## Any number of submits -/

/-- One thing that happens in the directory of the workspaces. -/
inductive HandoverLabel where
  | submit (id : String) (source : SourceArchive)
  | call (i : Nat) (ending : Ending)
  | copy (i : Nat) (id : String)
  | record (i : Nat)
  /-- It ends with its last file, with an error elsewhere or with its process. -/
  | leave (i : Nat)

namespace Handover

variable (h : Handover)

/-- `new_id` has minted an id that no call has minted before. -/
def Mints (s : Site) (id : String) : Prop := isRunId id = true ∧ id ∉ s.minted

instance (s : Site) (id : String) : Decidable (Mints s id) := inferInstanceAs (Decidable (_ ∧ _))

def step (s : Site) : HandoverLabel → Option Site
  | .submit id source => if Mints s id then
      some { s with
        minted := id :: s.minted
        submits := s.submits ++ (match decodeSource h.base64Error source h.maxBytes with
          | .error _ => []
          | .ok (format, bytes) => [⟨source, id, .materialize id format bytes .clear⟩]) }
    else none
  | .call i ending => s.submits[i]?.bind fun t =>
      (h.call s.files t.doing ending).map fun (files, doing) =>
        { s with
          files := files
          submits := Actors.put s.submits i (doing.map fun d => { t with doing := d }) }
  | .copy i id => s.submits[i]?.bind fun t => match t.doing with
    | .between => if Mints s id then
        some { s with
          minted := id :: s.minted
          submits := Actors.put s.submits i
            (((h.workspace t.seed).storedSource s.files).map fun (format, path) =>
              { t with doing := .reading id format path }) }
      else none
    | _ => none
  | .record i => s.submits[i]?.bind fun t => match t.doing with
    | .ready id => some { s with
        runs := s.runs ++ [(id, t.request)]
        submits := Actors.put s.submits i (some { t with doing := .between }) }
    | _ => none
  | .leave i => s.submits[i]?.map fun _ => { s with submits := Actors.put s.submits i none }

/-- The submits of any number of instances, from an empty directory on. `Mints` assumes that no id is
minted twice, which two processes may do in one millisecond. -/
def machine : Machine Site HandoverLabel where
  init s := s.files h.dir = some .dir ∧ (∀ p, h.dir <+: p → p ≠ h.dir → s.files p = none) ∧
    s.minted = [] ∧ s.submits = [] ∧ s.runs = []
  step := h.step

end Handover

/-! ## The positions of an id -/

namespace Handover

variable (h : Handover)

/-- A position is at or below a place that `Workspace::for_run` gives an id. -/
def Owns (id : String) (p : List Bytes) : Prop :=
  (h.workspace id).root <+: p ∨ ∃ format, (h.workspace id).pathFor format <+: p

variable {h}

theorem pathFor_eq (id : String) (format : SourceFormat) :
    (h.workspace id).pathFor format = h.dir ++ [utf8 s!"{id}.{format.extension}"] := by
  cases format <;> rfl

theorem owns_root (id : String) : h.Owns id (h.workspace id).root := Or.inl List.prefix_rfl

theorem owns_pathFor (id : String) (format : SourceFormat) :
    h.Owns id ((h.workspace id).pathFor format) := Or.inr ⟨format, List.prefix_rfl⟩

/-- Two entries of the directory with something in common are one. -/
theorem entry_unique {m n : String} {p : List Bytes} (hm : h.dir ++ [utf8 m] <+: p)
    (hn : h.dir ++ [utf8 n] <+: p) : m = n := by
  have hsame := (List.prefix_of_prefix_length_le hm hn (by simp)).eq_of_length (by simp)
  rw [List.append_cancel_left_eq, List.cons.injEq] at hsame
  exact utf8_inj.mp hsame.1

theorem dot_notMem {id : String} (hid : isRunId id = true) : '.' ∉ id.toList := by
  intro hmem
  simp only [isRunId, Bool.and_eq_true, List.all_eq_true] at hid
  exact absurd (hid.2 '.' hmem) (by decide)

theorem toList_stored (id ext : String) : s!"{id}.{ext}".toList = id.toList ++ '.' :: ext.toList := by
  change (id ++ "." ++ ext).toList = _
  rw [String.toList_append, String.toList_append, List.append_assoc]
  rfl

/-- The name of a file that is kept says the id and the format. -/
theorem stored_inj {id other ext kind : String} (hid : isRunId id = true) (hother : isRunId other = true)
    (heq : s!"{id}.{ext}" = s!"{other}.{kind}") : id = other ∧ ext = kind := by
  have hlist := congrArg String.toList heq
  rw [toList_stored, toList_stored] at hlist
  obtain ⟨hids, hexts⟩ := Words.split_inj hlist (dot_notMem hid) (dot_notMem hother)
  exact ⟨String.toList_inj.mp hids, String.toList_inj.mp hexts⟩

theorem ne_stored {id other ext : String} (hid : isRunId id = true) : id ≠ s!"{other}.{ext}" := by
  intro heq
  have hdot : '.' ∈ id.toList := by
    rw [heq, toList_stored]
    exact List.mem_append_right _ List.mem_cons_self
  exact dot_notMem hid hdot

/-- **No position belongs to two ids.** -/
theorem owns_unique {id id' : String} (hid : isRunId id = true) (hid' : isRunId id' = true)
    {p : List Bytes} (hp : h.Owns id p) (hp' : h.Owns id' p) : id = id' := by
  rcases hp with hp | ⟨format, hp⟩ <;> rcases hp' with hp' | ⟨format', hp'⟩
  · exact entry_unique hp hp'
  · rw [pathFor_eq] at hp'
    exact absurd (entry_unique hp hp') (ne_stored hid)
  · rw [pathFor_eq] at hp
    exact absurd (entry_unique hp' hp) (ne_stored hid')
  · rw [pathFor_eq] at hp hp'
    exact (stored_inj hid hid' (entry_unique hp hp')).1

theorem root_notPrefix {id : String} (hid : isRunId id = true) (format : SourceFormat) :
    ¬ (h.workspace id).root <+: (h.workspace id).pathFor format := by
  intro hp
  have hself : (h.workspace id).pathFor format <+: (h.workspace id).pathFor format := List.prefix_rfl
  rw [pathFor_eq] at hp hself
  exact ne_stored hid (entry_unique hp hself)

theorem pathFor_ne_root {id : String} (hid : isRunId id = true) (format : SourceFormat) :
    (h.workspace id).pathFor format ≠ (h.workspace id).root := by
  intro heq
  refine root_notPrefix (h := h) hid format ?_
  rw [heq]

theorem pathFor_ne_other {id : String} (hid : isRunId id = true) (format : SourceFormat) :
    (h.workspace id).pathFor format ≠ (h.workspace id).pathFor format.other := by
  intro heq
  rw [pathFor_eq, pathFor_eq, List.append_cancel_left_eq, List.cons.injEq] at heq
  have hext := (stored_inj hid hid (utf8_inj.mp heq.1)).2
  cases format with
  | tarGz => exact absurd hext (by decide)
  | gitBundle => exact absurd hext (by decide)

/-! ## What the calls keep -/

variable (h) in
/-- The bytes of a format are kept for an id, and none of the other. -/
structure Holds (files : Files Bytes Bytes) (id : String) (format : SourceFormat) (bytes : Bytes) :
    Prop where
  here : files ((h.workspace id).pathFor format) = some (.file bytes)
  other : files ((h.workspace id).pathFor format.other) = none

variable (h) in
/-- Nothing is there for an id yet. -/
def Untouched (files : Files Bytes Bytes) (id : String) : Prop := ∀ p, h.Owns id p → files p = none

variable (h) in
/-- What is there for an id at a call of `materialize`. -/
def AtStage (files : Files Bytes Bytes) (id : String) (format : SourceFormat) (bytes : Bytes) :
    Stage → Prop
  | .clear | .makeRoot => h.Untouched files id
  | .write => (∀ format, files ((h.workspace id).pathFor format) = none) ∧
      Tame files (h.workspace id).root
  | .dropOther | .unpack _ => h.Holds files id format bytes ∧ Tame files (h.workspace id).root
  | .clone => h.Holds files id format bytes

variable (h) in
/-- What is there for the ids of a submit with these bytes. -/
def AtDoing (files : Files Bytes Bytes) (seed : String) (format : SourceFormat) (bytes : Bytes) :
    Doing → Prop
  | .materialize id f bs stage => f = format ∧ bs = bytes ∧ h.AtStage files id format bytes stage ∧
      (id ≠ seed → h.Holds files seed format bytes)
  | .ready id => h.Holds files id format bytes ∧ h.Holds files seed format bytes
  | .between => h.Holds files seed format bytes
  | .reading id f path => h.Holds files seed format bytes ∧ f = format ∧
      path = (h.workspace seed).pathFor format ∧ id ≠ seed ∧ h.Untouched files id

section Frame

variable {files files' : Files Bytes Bytes} {id seed : String} {format : SourceFormat} {bytes : Bytes}

theorem Holds.congr (hh : h.Holds files id format bytes) (heq : ∀ p, h.Owns id p → files' p = files p) :
    h.Holds files' id format bytes :=
  ⟨(heq _ (owns_pathFor id _)).trans hh.here, (heq _ (owns_pathFor id _)).trans hh.other⟩

theorem Untouched.congr (hh : h.Untouched files id) (heq : ∀ p, h.Owns id p → files' p = files p) :
    h.Untouched files' id := fun p hp => (heq p hp).trans (hh p hp)

theorem AtStage.congr {stage : Stage} (hh : h.AtStage files id format bytes stage)
    (heq : ∀ p, h.Owns id p → files' p = files p) : h.AtStage files' id format bytes stage := by
  have htame : ∀ p, (h.workspace id).root <+: p → files' p = files p := fun p hp => heq p (Or.inl hp)
  cases stage with
  | clear | makeRoot => exact Untouched.congr hh heq
  | write => exact ⟨fun f => (heq _ (owns_pathFor id f)).trans (hh.1 f), hh.2.congr htame⟩
  | dropOther | unpack _ => exact ⟨hh.1.congr heq, hh.2.congr htame⟩
  | clone => exact Holds.congr hh heq

/-- What other ids own does not matter. -/
theorem AtDoing.congr {doing : Doing} (hh : h.AtDoing files seed format bytes doing)
    (hseed : ∀ p, h.Owns seed p → files' p = files p)
    (hcurrent : ∀ id, doing.current = some id → ∀ p, h.Owns id p → files' p = files p) :
    h.AtDoing files' seed format bytes doing := by
  cases doing with
  | materialize id f bs stage =>
    obtain ⟨hf, hbs, hstage, hother⟩ := hh
    exact ⟨hf, hbs, hstage.congr (hcurrent id rfl), fun hne => (hother hne).congr hseed⟩
  | ready id => exact ⟨hh.1.congr (hcurrent id rfl), hh.2.congr hseed⟩
  | between => exact Holds.congr hh hseed
  | reading id f path =>
    obtain ⟨hholds, hf, hpath, hne, hfree⟩ := hh
    exact ⟨hholds.congr hseed, hf, hpath, hne, hfree.congr (hcurrent id rfl)⟩

end Frame

/-! ## One call -/

section Turn

variable {files files' : Files Bytes Bytes} {id : String} {format : SourceFormat} {bytes : Bytes}

variable (h) in
/-- What a submit may go on with after a call of `materialize`. -/
def GoesOn (files : Files Bytes Bytes) (id : String) (format : SourceFormat) (bytes : Bytes)
    (d : Doing) : Prop :=
  (∃ stage, d = .materialize id format bytes stage ∧ h.AtStage files id format bytes stage) ∨
    (d = .ready id ∧ h.Holds files id format bytes)

theorem goesOn_unpacking {d : Doing} (hholds : h.Holds files id format bytes)
    (htame : Tame files (h.workspace id).root) (hd : h.unpacking id format bytes = some d) :
    h.GoesOn files id format bytes d := by
  unfold unpacking at hd
  cases format with
  | gitBundle =>
    cases hd
    exact Or.inl ⟨.clone, rfl, hholds⟩
  | tarGz =>
    simp only at hd
    split at hd
    · cases hd
    · rename_i entries _
      cases hd
      exact Or.inl ⟨.unpack entries, rfl, hholds, htame⟩

/-- What is at the root is not what is kept beside it. -/
theorem Holds.of_root (hid : isRunId id = true) (hh : h.Holds files id format bytes)
    (heq : ∀ p, ¬ (h.workspace id).root <+: p → files' p = files p) :
    h.Holds files' id format bytes :=
  ⟨(heq _ (root_notPrefix hid _)).trans hh.here, (heq _ (root_notPrefix hid _)).trans hh.other⟩

theorem not_owns {p : List Bytes} (hp : ¬ h.Owns id p) : ¬ (h.workspace id).root <+: p ∧
    ∀ format, ¬ (h.workspace id).pathFor format <+: p :=
  ⟨fun hr => hp (Or.inl hr), fun format hf => hp (Or.inr ⟨format, hf⟩)⟩

/-- **A call changes positions of its id only**, and what was written stays as it is. -/
theorem turn_kept (hu : h.tar.Unpacks) (hid : isRunId id = true) {stage : Stage} {ending : Ending}
    {o : Option Doing} (hstage : h.AtStage files id format bytes stage)
    (hturn : h.turn files id format bytes stage ending = some (files', o)) :
    (∀ p, ¬ h.Owns id p → files' p = files p) ∧
      ∀ d, o = some d → h.GoesOn files' id format bytes d := by
  have hleft : ∀ {left : Edits Bytes Bytes}, (if left.Under (h.workspace id).root then
      some (left.apply files, (none : Option Doing)) else none) = some (files', o) →
      (∀ p, ¬ h.Owns id p → files' p = files p) ∧
        ∀ d, o = some d → h.GoesOn files' id format bytes d := by
    intro left hif
    split_ifs at hif with hunder
    cases hif
    exact ⟨fun p hp => Edits.apply_of_under hunder files (not_owns hp).1, fun d hd => by cases hd⟩
  cases stage with
  | clear =>
    cases ending with
    | ok =>
      cases hturn
      refine ⟨fun p hp => if_neg (not_owns hp).1, fun d hd => ?_⟩
      cases hd
      refine Or.inl ⟨.makeRoot, rfl, fun p hp => ?_⟩
      change (if _ then none else files p) = none
      rw [hstage p hp, ite_self]
    | failed left => exact hleft hturn
    | part made => cases hturn
  | makeRoot =>
    cases ending with
    | ok =>
      cases hturn
      refine ⟨fun p hp => if_neg ?_, fun d hd => ?_⟩
      · rintro rfl
        exact hp (owns_root id)
      · cases hd
        refine Or.inl ⟨.write, rfl, fun f => ?_, tame_of_empty (if_pos rfl) fun p hp hne => ?_⟩
        · exact (if_neg (pathFor_ne_root hid f)).trans (hstage _ (owns_pathFor id f))
        · exact (if_neg hne).trans (hstage p (Or.inl hp))
    | failed left => exact hleft hturn
    | part made => cases hturn
  | write =>
    obtain ⟨hnone, htame⟩ := hstage
    cases ending with
    | ok =>
      cases hturn
      refine ⟨fun p hp => if_neg ?_, fun d hd => ?_⟩
      · rintro rfl
        exact hp (owns_pathFor id format)
      · cases hd
        refine Or.inl ⟨.dropOther, rfl, ⟨if_pos rfl, ?_⟩, htame.congr fun p hp => if_neg ?_⟩
        · exact (if_neg (pathFor_ne_other hid format).symm).trans (hnone _)
        · rintro rfl
          exact root_notPrefix hid format hp
    | failed left =>
      change (if left.Under ((h.workspace id).pathFor format) then _ else none) = _ at hturn
      split_ifs at hturn with hunder
      cases hturn
      exact ⟨fun p hp => Edits.apply_of_under hunder files ((not_owns hp).2 format),
        fun d hd => by cases hd⟩
    | part made => cases hturn
  | dropOther =>
    obtain ⟨hholds, htame⟩ := hstage
    cases ending with
    | ok =>
      cases hturn
      refine ⟨fun p hp => if_neg ?_, fun d hd => goesOn_unpacking ⟨?_, if_pos rfl⟩
        (htame.congr fun p hp => if_neg ?_) hd⟩
      · rintro rfl
        exact hp (owns_pathFor id format.other)
      · exact (if_neg (pathFor_ne_other hid format)).trans hholds.here
      · rintro rfl
        exact root_notPrefix hid format.other hp
    | failed left =>
      cases hturn
      exact ⟨fun p _ => rfl, fun d hd => goesOn_unpacking hholds htame hd⟩
    | part made => cases hturn
  | unpack entries =>
    obtain ⟨hholds, htame⟩ := hstage
    cases entries with
    | nil =>
      cases ending with
      | ok =>
        cases hturn
        refine ⟨fun p _ => rfl, fun d hd => ?_⟩
        cases hd
        exact Or.inr ⟨rfl, hholds⟩
      | failed left => cases hturn
      | part made => cases hturn
    | cons entry entries =>
      cases ending with
      | ok =>
        have hstart : Tar.Kept (h.workspace id).root files ⟨files, []⟩ :=
          ⟨htame, fun _ ha => absurd ha List.not_mem_nil, fun _ _ => rfl⟩
        have hkept := Tar.kept_extractEntry hu entry hstart
        cases hturn
        refine ⟨fun p hp => hkept.rest p (not_owns hp).1, fun d hd => ?_⟩
        split_ifs at hd
        cases hd
        exact Or.inl ⟨.unpack entries, rfl, hholds.of_root hid hkept.rest, hkept.tame⟩
      | failed left => cases hturn
      | part made => cases hturn
  | clone =>
    cases ending with
    | ok =>
      cases hturn
      refine ⟨fun p _ => rfl, fun d hd => ?_⟩
      cases hd
      exact Or.inr ⟨rfl, hstage⟩
    | failed left => exact hleft hturn
    | part made =>
      change (if made.Under (h.workspace id).root then _ else none) = _ at hturn
      split_ifs at hturn with hunder
      cases hturn
      have hrest : ∀ p, ¬ (h.workspace id).root <+: p → made.apply files p = files p := fun p hp =>
        Edits.apply_of_under hunder files hp
      refine ⟨fun p hp => hrest p (not_owns hp).1, fun d hd => ?_⟩
      cases hd
      exact Or.inl ⟨.clone, rfl, Holds.of_root hid hstage hrest⟩

end Turn

/-! ## All submits -/

variable (h) in
/-- What is there for a submit is what its request says. -/
def Goes (files : Files Bytes Bytes) (request : SourceArchive) (seed : String) (doing : Doing) : Prop :=
  ∃ format bytes, decodeSource h.base64Error request h.maxBytes = .ok (format, bytes) ∧
    h.AtDoing files seed format bytes doing

variable (h) in
/-- What every call of every submit keeps. -/
structure Inv (s : Site) : Prop where
  fresh : ∀ id, isRunId id = true → id ∉ s.minted → h.Untouched s.files id
  ids : ∀ id ∈ s.minted, isRunId id = true
  goes : ∀ t ∈ s.submits, h.Goes s.files t.request t.seed t.doing
  minted : ∀ t ∈ s.submits, t.seed ∈ s.minted ∧ ∀ id, t.doing.current = some id → id ∈ s.minted
  seeds : (s.submits.map (·.seed)).Nodup
  /-- No submit works on what another one works on or copies from. -/
  apart : ∀ t ∈ s.submits, ∀ u ∈ s.submits, t.seed ≠ u.seed → ∀ id, t.doing.current = some id →
    id ≠ u.seed ∧ u.doing.current ≠ some id
  recorded : ∀ r ∈ s.runs, r.1 ∈ s.minted ∧ (∀ t ∈ s.submits, t.doing.current ≠ some r.1) ∧
    h.Goes s.files r.2 r.1 .between
  runs : (s.runs.map Prod.fst).Nodup

section Step

variable {s : Site} {i : Nat} {t : Submitting}

/-- Another submit has another seed. -/
theorem seed_ne (hI : h.Inv s) (hi : s.submits[i]? = some t) {o : Option Submitting} {u : Submitting}
    (hmem : u ∈ Actors.put s.submits i o) : (u ∈ s.submits ∧ u.seed ≠ t.seed) ∨ o = some u := by
  rcases Actors.mem_put_distinct hI.seeds hi hmem with ⟨hu, hne⟩ | ho
  · refine Or.inl ⟨hu, fun heq => hne ?_⟩
    exact List.inj_on_of_nodup_map hI.seeds hu (List.mem_of_getElem? hi) heq
  · exact Or.inr ho

theorem seeds_put (hI : h.Inv s) (hi : s.submits[i]? = some t) (o : Option Doing) :
    ((Actors.put s.submits i (o.map fun d => { t with doing := d })).map (·.seed)).Nodup := by
  refine hI.seeds.sublist (Actors.map_put_sublist hi fun b hb => ?_)
  obtain ⟨d, -, rfl⟩ := Option.map_eq_some_iff.mp hb
  rfl

/-- **A submit goes on with its id**, and changes positions of that id only. -/
theorem inv_move (hI : h.Inv s) (hi : s.submits[i]? = some t) {id : String}
    (hcurrent : t.doing.current = some id) {files : Files Bytes Bytes}
    (hframe : ∀ p, ¬ h.Owns id p → files p = s.files p) {o : Option Doing}
    (ho : ∀ d, o = some d → d.current = some id ∧ h.Goes files t.request t.seed d) :
    h.Inv { s with
      files := files
      submits := Actors.put s.submits i (o.map fun d => { t with doing := d }) } := by
  have ht : t ∈ s.submits := List.mem_of_getElem? hi
  have hid : id ∈ s.minted := (hI.minted t ht).2 id hcurrent
  have hsame : ∀ id', isRunId id' = true → id' ≠ id → ∀ p, h.Owns id' p → files p = s.files p :=
    fun id' hrun hne p hp => hframe p fun hp' => hne (owns_unique hrun (hI.ids id hid) hp hp')
  have hnew : ∀ u, (o.map fun d => { t with doing := d }) = some u →
      u.seed = t.seed ∧ u.request = t.request ∧ u.doing.current = some id ∧
        h.Goes files u.request u.seed u.doing := by
    intro u hu
    obtain ⟨d, hd, rfl⟩ := Option.map_eq_some_iff.mp hu
    exact ⟨rfl, rfl, ho d hd⟩
  refine ⟨fun id' hrun hnot => ?_, hI.ids, fun u hu => ?_, fun u hu => ?_, seeds_put hI hi o,
    fun u hu v hv hne id' hcur => ?_, fun r hr => ?_, hI.runs⟩
  · exact (hI.fresh id' hrun hnot).congr (hsame id' hrun fun heq => hnot (heq ▸ hid))
  · rcases seed_ne hI hi hu with ⟨hold, hseed⟩ | hmoved
    · obtain ⟨format, bytes, hdecode, hdoing⟩ := hI.goes u hold
      have hapart := hI.apart t ht u hold (Ne.symm hseed) id hcurrent
      refine ⟨format, bytes, hdecode, hdoing.congr ?_ fun id' hcur => ?_⟩
      · exact hsame u.seed (hI.ids _ (hI.minted u hold).1) (Ne.symm hapart.1)
      · exact hsame id' (hI.ids _ ((hI.minted u hold).2 id' hcur)) fun heq => hapart.2 (heq ▸ hcur)
    · exact (hnew u hmoved).2.2.2
  · rcases seed_ne hI hi hu with ⟨hold, -⟩ | hmoved
    · exact hI.minted u hold
    · obtain ⟨hseed, -, hcur, -⟩ := hnew u hmoved
      refine ⟨hseed ▸ (hI.minted t ht).1, fun id' hid' => ?_⟩
      rw [hcur] at hid'
      cases hid'
      exact hid
  · rcases seed_ne hI hi hu with ⟨hold, hseed⟩ | hmoved <;>
      rcases seed_ne hI hi hv with ⟨hold', hseed'⟩ | hmoved'
    · exact hI.apart u hold v hold' hne id' hcur
    · obtain ⟨hs, -, hc, -⟩ := hnew v hmoved'
      rw [hs, hc, ← hcurrent]
      exact hI.apart u hold t ht hseed id' hcur
    · obtain ⟨hs, -, hc, -⟩ := hnew u hmoved
      rw [hc] at hcur
      rw [hs] at hne
      exact hI.apart t ht v hold' hne id' (hcurrent.trans hcur)
    · exact absurd ((hnew u hmoved).1.trans (hnew v hmoved').1.symm) hne
  · obtain ⟨hr₁, hr₂, format, bytes, hdecode, hholds⟩ := hI.recorded r hr
    refine ⟨hr₁, fun u hu => ?_, format, bytes, hdecode, ?_⟩
    · rcases seed_ne hI hi hu with ⟨hold, -⟩ | hmoved
      · exact hr₂ u hold
      · rw [(hnew u hmoved).2.2.1, ← hcurrent]
        exact hr₂ t ht
    · refine Holds.congr hholds (hsame r.1 (hI.ids _ hr₁) fun heq => hr₂ t ht ?_)
      rw [hcurrent, heq]

theorem inv_leave (hI : h.Inv s) (hi : s.submits[i]? = some t) :
    h.Inv { s with submits := Actors.put s.submits i none } := by
  have hold : ∀ u, u ∈ Actors.put s.submits i none → u ∈ s.submits := fun u => Actors.mem_put_none
  refine ⟨hI.fresh, hI.ids, fun u hu => hI.goes u (hold u hu), fun u hu => hI.minted u (hold u hu),
    seeds_put hI hi none, fun u hu v hv => hI.apart u (hold u hu) v (hold v hv), fun r hr => ?_, hI.runs⟩
  obtain ⟨hr₁, hr₂, hr₃⟩ := hI.recorded r hr
  exact ⟨hr₁, fun u hu => hr₂ u (hold u hu), hr₃⟩

/-- A run is recorded with what was put under its id. -/
theorem inv_record (hI : h.Inv s) (hi : s.submits[i]? = some t) {id : String}
    (hready : t.doing = .ready id) : h.Inv { s with
      runs := s.runs ++ [(id, t.request)]
      submits := Actors.put s.submits i (some { t with doing := .between }) } := by
  have ht : t ∈ s.submits := List.mem_of_getElem? hi
  have hcurrent : t.doing.current = some id := by rw [hready]; rfl
  obtain ⟨format, bytes, hdecode, hdoing⟩ := hI.goes t ht
  rw [hready] at hdoing
  have hcases : ∀ u ∈ Actors.put s.submits i (some { t with doing := .between }),
      (u ∈ s.submits ∧ u.seed ≠ t.seed) ∨ u = ⟨t.request, t.seed, .between⟩ := fun u hu =>
    (seed_ne hI hi hu).imp_right fun hu => (Option.some.inj hu).symm
  have hfree : ∀ u ∈ Actors.put s.submits i (some { t with doing := .between }), ∀ id',
      u.doing.current = some id' → u ∈ s.submits ∧ u.seed ≠ t.seed := by
    intro u hu id' hcur
    rcases hcases u hu with hold | hmoved
    · exact hold
    · rw [hmoved] at hcur
      cases hcur
  refine ⟨hI.fresh, hI.ids, fun u hu => ?_, fun u hu => ?_, ?_, fun u hu v hv hne id' hcur => ?_,
    fun r hr => ?_, ?_⟩
  · rcases hcases u hu with ⟨hold, -⟩ | hmoved
    · exact hI.goes u hold
    · rw [hmoved]
      exact ⟨format, bytes, hdecode, hdoing.2⟩
  · rcases hcases u hu with ⟨hold, -⟩ | hmoved
    · exact hI.minted u hold
    · rw [hmoved]
      exact ⟨(hI.minted t ht).1, fun id' hid' => by cases hid'⟩
  · exact seeds_put hI hi (some .between)
  · obtain ⟨hold, hseed⟩ := hfree u hu id' hcur
    rcases hcases v hv with ⟨hold', -⟩ | hmoved
    · exact hI.apart u hold v hold' hne id' hcur
    · rw [hmoved]
      exact ⟨(hI.apart u hold t ht hseed id' hcur).1, fun hid' => by cases hid'⟩
  · rcases List.mem_append.mp hr with hr | hr
    · obtain ⟨hr₁, hr₂, hr₃⟩ := hI.recorded r hr
      exact ⟨hr₁, fun u hu hcur => hr₂ u (hfree u hu _ hcur).1 hcur, hr₃⟩
    · obtain rfl := List.mem_singleton.mp hr
      refine ⟨(hI.minted t ht).2 id hcurrent, fun u hu hcur => ?_, format, bytes, hdecode, hdoing.1⟩
      obtain ⟨hold, hseed⟩ := hfree u hu id hcur
      exact (hI.apart u hold t ht hseed id hcur).2 hcurrent
  · rw [List.map_append, List.nodup_append]
    refine ⟨hI.runs, by simp, fun id' hmem id'' hid => ?_⟩
    obtain ⟨r, hr, rfl⟩ := List.mem_map.mp hmem
    rw [List.map_singleton, List.mem_singleton] at hid
    rintro heq
    exact (hI.recorded r hr).2.1 t ht (by rw [hcurrent, heq, hid])

/-- An id of its own for a copy, which is read from where the first run's bytes are. -/
theorem inv_copy (hI : h.Inv s) (hi : s.submits[i]? = some t) (hbetween : t.doing = .between)
    {id : String} (hid : Mints s id) : h.Inv { s with
      minted := id :: s.minted
      submits := Actors.put s.submits i
        (((h.workspace t.seed).storedSource s.files).map fun (format, path) =>
          { t with doing := .reading id format path }) } := by
  have ht : t ∈ s.submits := List.mem_of_getElem? hi
  obtain ⟨format, bytes, hdecode, hdoing⟩ := hI.goes t ht
  rw [hbetween] at hdoing
  have hstored : (h.workspace t.seed).storedSource s.files = some (format, _) :=
    Workspace.storedSource_eq (by rw [hdoing.here]; rfl) hdoing.other
  have hmint : ∀ {id'}, id' ∈ s.minted → id' ≠ id := fun hmem heq => hid.2 (heq ▸ hmem)
  rw [hstored, Option.map_some]
  have hcases : ∀ u ∈ Actors.put s.submits i (some { t with
      doing := .reading id format ((h.workspace t.seed).pathFor format) }),
      (u ∈ s.submits ∧ u.seed ≠ t.seed) ∨
        u = ⟨t.request, t.seed, .reading id format ((h.workspace t.seed).pathFor format)⟩ :=
    fun u hu => (seed_ne hI hi hu).imp_right fun hu => (Option.some.inj hu).symm
  refine ⟨fun id' hrun hnot => ?_, fun id' hmem => ?_, fun u hu => ?_, fun u hu => ?_, ?_,
    fun u hu v hv hne id' hcur => ?_, fun r hr => ?_, hI.runs⟩
  · exact hI.fresh id' hrun fun hmem => hnot (List.mem_cons_of_mem id hmem)
  · rcases List.mem_cons.mp hmem with rfl | hmem
    · exact hid.1
    · exact hI.ids id' hmem
  · rcases hcases u hu with ⟨hold, -⟩ | hmoved
    · exact hI.goes u hold
    · rw [hmoved]
      exact ⟨format, bytes, hdecode, hdoing, rfl, rfl, Ne.symm (hmint (hI.minted t ht).1),
        hI.fresh id hid.1 hid.2⟩
  · rcases hcases u hu with ⟨hold, -⟩ | hmoved
    · exact ⟨List.mem_cons_of_mem id (hI.minted u hold).1, fun id' hcur =>
        List.mem_cons_of_mem id ((hI.minted u hold).2 id' hcur)⟩
    · rw [hmoved]
      refine ⟨List.mem_cons_of_mem id (hI.minted t ht).1, fun id' hcur => ?_⟩
      cases hcur
      exact List.mem_cons_self
  · exact seeds_put hI hi (some (.reading id format ((h.workspace t.seed).pathFor format)))
  · rcases hcases u hu with ⟨hold, hseed⟩ | hmoved <;>
      rcases hcases v hv with ⟨hold', hseed'⟩ | hmoved'
    · exact hI.apart u hold v hold' hne id' hcur
    · rw [hmoved']
      refine ⟨(hI.apart u hold t ht hseed id' hcur).1, fun hid' => ?_⟩
      cases hid'
      exact hmint ((hI.minted u hold).2 id hcur) rfl
    · rw [hmoved] at hcur
      cases hcur
      exact ⟨Ne.symm (hmint (hI.minted v hold').1), fun hcur' =>
        hmint ((hI.minted v hold').2 id hcur') rfl⟩
    · rw [hmoved, hmoved'] at hne
      exact absurd rfl hne
  · obtain ⟨hr₁, hr₂, hr₃⟩ := hI.recorded r hr
    refine ⟨List.mem_cons_of_mem id hr₁, fun u hu hcur => ?_, hr₃⟩
    rcases hcases u hu with ⟨hold, -⟩ | hmoved
    · exact hr₂ u hold hcur
    · rw [hmoved] at hcur
      exact hmint hr₁ (Option.some.inj hcur).symm

/-- A submit comes with an id nothing is there for. -/
theorem inv_submit (hI : h.Inv s) {id : String} (hid : Mints s id) (source : SourceArchive) :
    h.Inv { s with
      minted := id :: s.minted
      submits := s.submits ++ (match decodeSource h.base64Error source h.maxBytes with
        | .error _ => []
        | .ok (format, bytes) => [⟨source, id, .materialize id format bytes .clear⟩]) } := by
  have hmint : ∀ {id'}, id' ∈ s.minted → id' ≠ id := fun hmem heq => hid.2 (heq ▸ hmem)
  have hids : ∀ id' ∈ id :: s.minted, isRunId id' = true := by
    intro id' hmem
    rcases List.mem_cons.mp hmem with rfl | hmem
    · exact hid.1
    · exact hI.ids id' hmem
  have hfresh : ∀ id', isRunId id' = true → id' ∉ id :: s.minted → h.Untouched s.files id' :=
    fun id' hrun hnot => hI.fresh id' hrun fun hmem => hnot (List.mem_cons_of_mem id hmem)
  have holds : ∀ u ∈ s.submits, u.seed ∈ id :: s.minted ∧
      ∀ id', u.doing.current = some id' → id' ∈ id :: s.minted := fun u hu =>
    ⟨List.mem_cons_of_mem id (hI.minted u hu).1, fun id' hcur =>
      List.mem_cons_of_mem id ((hI.minted u hu).2 id' hcur)⟩
  cases hdecode : decodeSource h.base64Error source h.maxBytes with
  | error e =>
    simp only [List.append_nil]
    refine ⟨hfresh, hids, hI.goes, holds, hI.seeds, hI.apart, fun r hr => ?_, hI.runs⟩
    obtain ⟨hr₁, hr₂⟩ := hI.recorded r hr
    exact ⟨List.mem_cons_of_mem id hr₁, hr₂⟩
  | ok decoded =>
    obtain ⟨format, bytes⟩ := decoded
    have hmem : ∀ u, u ∈ s.submits ++ [⟨source, id, .materialize id format bytes .clear⟩] →
        u ∈ s.submits ∨ u = ⟨source, id, .materialize id format bytes .clear⟩ := fun u hu =>
      (List.mem_append.mp hu).imp_right List.mem_singleton.mp
    refine ⟨hfresh, hids, fun u hu => ?_, fun u hu => ?_, ?_, fun u hu v hv hne id' hcur => ?_,
      fun r hr => ?_, hI.runs⟩
    · rcases hmem u hu with hold | rfl
      · exact hI.goes u hold
      · exact ⟨format, bytes, hdecode, rfl, rfl, hI.fresh id hid.1 hid.2, fun hne => absurd rfl hne⟩
    · rcases hmem u hu with hold | rfl
      · exact holds u hold
      · refine ⟨List.mem_cons_self, fun id' hcur => ?_⟩
        cases hcur
        exact List.mem_cons_self
    · rw [List.map_append, List.nodup_append]
      refine ⟨hI.seeds, by simp, fun seed hseed id' hid' => ?_⟩
      obtain ⟨u, hu, rfl⟩ := List.mem_map.mp hseed
      rw [List.map_singleton, List.mem_singleton] at hid'
      rw [hid']
      exact hmint (hI.minted u hu).1
    · rcases hmem u hu with hold | rfl <;> rcases hmem v hv with hold' | rfl
      · exact hI.apart u hold v hold' hne id' hcur
      · have hmem' := (hI.minted u hold).2 id' hcur
        refine ⟨hmint hmem', fun hid' => ?_⟩
        cases hid'
        exact hmint hmem' rfl
      · cases hcur
        exact ⟨Ne.symm (hmint (hI.minted v hold').1), fun hcur' =>
          hmint ((hI.minted v hold').2 id hcur') rfl⟩
      · exact absurd rfl hne
    · obtain ⟨hr₁, hr₂, hr₃⟩ := hI.recorded r hr
      refine ⟨List.mem_cons_of_mem id hr₁, fun u hu hcur => ?_, hr₃⟩
      rcases hmem u hu with hold | rfl
      · exact hr₂ u hold hcur
      · exact hmint hr₁ (Option.some.inj hcur).symm

/-- What is read for another run is what was submitted. -/
theorem copied_eq {id : String} {format : SourceFormat} {bytes : Bytes}
    (hlen : bytes.length ≤ h.maxBytes) :
    h.copied id format bytes = some (.materialize id format bytes .clear) := by
  have hmax := h.max_lt
  have hdecode : decodeSource h.base64Error ⟨format.asStr, String.ofList (Base64.encode bytes)⟩
      (2 ^ 64 - 1) = .ok (format, bytes) := by
    rw [decodeSource_ok_iff, String.toList_ofList]
    exact ⟨SourceFormat.parse_asStr format, Base64.decode_eq_some.mpr rfl, by omega⟩
  rw [copied, hdecode]

theorem inv_call (hu : h.tar.Unpacks) (hI : h.Inv s) (hi : s.submits[i]? = some t) {ending : Ending}
    {files : Files Bytes Bytes} {o : Option Doing}
    (hcall : h.call s.files t.doing ending = some (files, o)) :
    h.Inv { s with
      files := files
      submits := Actors.put s.submits i (o.map fun d => { t with doing := d }) } := by
  have ht : t ∈ s.submits := List.mem_of_getElem? hi
  obtain ⟨format, bytes, hdecode, hdoing⟩ := hI.goes t ht
  cases hd : t.doing with
  | materialize id f bs stage =>
    rw [hd] at hcall hdoing
    obtain ⟨rfl, rfl, hstage, hseed⟩ := hdoing
    have hcurrent : t.doing.current = some id := by rw [hd]; rfl
    have hmem := (hI.minted t ht).2 id hcurrent
    obtain ⟨hframe, hgoes⟩ := turn_kept hu (hI.ids id hmem) hstage hcall
    have hkeep : id ≠ t.seed → h.Holds files t.seed f bs := fun hne =>
      (hseed hne).congr fun p hp => hframe p fun hp' =>
        hne (owns_unique (hI.ids id hmem) (hI.ids _ (hI.minted t ht).1) hp' hp)
    refine inv_move hI hi hcurrent hframe fun d ho => ?_
    rcases hgoes d ho with ⟨stage', rfl, hstage'⟩ | ⟨rfl, hholds⟩
    · exact ⟨rfl, f, bs, hdecode, rfl, rfl, hstage', hkeep⟩
    · refine ⟨rfl, f, bs, hdecode, hholds, ?_⟩
      by_cases hne : id = t.seed
      · rwa [← hne]
      · exact hkeep hne
  | ready id =>
    rw [hd] at hcall
    cases hcall
  | between =>
    rw [hd] at hcall
    cases hcall
  | reading id f path =>
    rw [hd] at hcall hdoing
    obtain ⟨hholds, rfl, rfl, hne, hfree⟩ := hdoing
    have hcurrent : t.doing.current = some id := by rw [hd]; rfl
    cases ending with
    | ok =>
      rw [call, hholds.here] at hcall
      cases hcall
      refine inv_move hI hi hcurrent (fun p _ => rfl) fun d ho => ?_
      rw [copied_eq (decodeSource_ok_iff.mp hdecode).2.2] at ho
      cases ho
      exact ⟨rfl, f, bytes, hdecode, rfl, rfl, hfree, fun _ => hholds⟩
    | failed left =>
      cases hcall
      exact inv_move hI hi hcurrent (fun p _ => rfl) fun d ho => by cases ho
    | part made => cases hcall

/-- What can happen. -/
theorem step_cases {a : HandoverLabel} {s' : Site} (hstep : h.step s a = some s') :
    (∃ id source, Mints s id ∧ s' = { s with
      minted := id :: s.minted
      submits := s.submits ++ (match decodeSource h.base64Error source h.maxBytes with
        | .error _ => []
        | .ok (format, bytes) => [⟨source, id, .materialize id format bytes .clear⟩]) }) ∨
    (∃ i t ending files o, s.submits[i]? = some t ∧
      h.call s.files t.doing ending = some (files, o) ∧ s' = { s with
        files := files
        submits := Actors.put s.submits i (o.map fun d => { t with doing := d }) }) ∨
    (∃ i t id, s.submits[i]? = some t ∧ t.doing = .between ∧ Mints s id ∧ s' = { s with
      minted := id :: s.minted
      submits := Actors.put s.submits i
        (((h.workspace t.seed).storedSource s.files).map fun (format, path) =>
          { t with doing := .reading id format path }) }) ∨
    (∃ i t id, s.submits[i]? = some t ∧ t.doing = .ready id ∧ s' = { s with
      runs := s.runs ++ [(id, t.request)]
      submits := Actors.put s.submits i (some { t with doing := .between }) }) ∨
    ∃ i t, s.submits[i]? = some t ∧ s' = { s with submits := Actors.put s.submits i none } := by
  cases a with
  | submit id source =>
    change (if Mints s id then some _ else none) = some s' at hstep
    split_ifs at hstep with hid
    cases hstep
    exact Or.inl ⟨id, source, hid, rfl⟩
  | call i ending =>
    obtain ⟨t, hi, hrest⟩ := Option.bind_eq_some_iff.mp hstep
    obtain ⟨⟨files, o⟩, hcall, rfl⟩ := Option.map_eq_some_iff.mp hrest
    exact Or.inr (Or.inl ⟨i, t, ending, files, o, hi, hcall, rfl⟩)
  | copy i id =>
    obtain ⟨t, hi, hrest⟩ := Option.bind_eq_some_iff.mp hstep
    split at hrest
    · rename_i hbetween
      split_ifs at hrest with hid
      cases hrest
      exact Or.inr (Or.inr (Or.inl ⟨i, t, id, hi, hbetween, hid, rfl⟩))
    · cases hrest
  | record i =>
    obtain ⟨t, hi, hrest⟩ := Option.bind_eq_some_iff.mp hstep
    split at hrest
    · rename_i id hready
      cases hrest
      exact Or.inr (Or.inr (Or.inr (Or.inl ⟨i, t, id, hi, hready, rfl⟩)))
    · cases hrest
  | leave i =>
    obtain ⟨t, hi, rfl⟩ := Option.map_eq_some_iff.mp hstep
    exact Or.inr (Or.inr (Or.inr (Or.inr ⟨i, t, hi, rfl⟩)))

/-- **Whatever happens keeps the invariant.** -/
theorem inv_step (hu : h.tar.Unpacks) (hI : h.Inv s) {a : HandoverLabel} {s' : Site}
    (hstep : h.step s a = some s') : h.Inv s' := by
  obtain ⟨id, source, hid, rfl⟩ | ⟨i, t, ending, files, o, hi, hcall, rfl⟩ |
    ⟨i, t, id, hi, hbetween, hid, rfl⟩ | ⟨i, t, id, hi, hready, rfl⟩ | ⟨i, t, hi, rfl⟩ :=
    step_cases hstep
  · exact inv_submit hI hid source
  · exact inv_call hu hI hi hcall
  · exact inv_copy hI hi hbetween hid
  · exact inv_record hI hi hready
  · exact inv_leave hI hi

theorem inv_init (hs : h.machine.init s) : h.Inv s := by
  obtain ⟨hdir, hempty, hminted, hsubmits, hruns⟩ := hs
  have hbelow : ∀ {n : String} {p : List Bytes}, h.dir ++ [utf8 n] <+: p → s.files p = none := by
    intro n p hp
    refine hempty p ((List.prefix_append _ _).trans hp) ?_
    rintro rfl
    have hlen := hp.length_le
    rw [List.length_append, List.length_singleton] at hlen
    omega
  refine ⟨fun id _ _ p hp => ?_, ?_, ?_, ?_, ?_, ?_, ?_, ?_⟩
  · rcases hp with hp | ⟨format, hp⟩
    · exact hbelow hp
    · rw [pathFor_eq] at hp
      exact hbelow hp
  all_goals simp [hminted, hsubmits, hruns]

theorem inv_reachable (hu : h.tar.Unpacks) (hs : h.machine.Reachable Machine.anyStep s) : h.Inv s :=
  hs.inv h.Inv (fun _ h₀ => inv_init h₀) fun _ _ _ _ hI _ hstep => inv_step hu hI hstep

/-- A run that is recorded stays recorded. -/
theorem runs_reach {s' : Site} (hr : h.machine.Reach Machine.anyStep s s')
    {run : String × SourceArchive} (hrun : run ∈ s.runs) : run ∈ s'.runs := by
  refine Machine.Reach.inv (fun s => run ∈ s.runs) (fun s a s' hmem _ hstep => ?_) hr hrun
  obtain ⟨id, source, hid, rfl⟩ | ⟨i, t, ending, files, o, hi, hcall, rfl⟩ |
    ⟨i, t, id, hi, hbetween, hid, rfl⟩ | ⟨i, t, id, hi, hready, rfl⟩ | ⟨i, t, hi, rfl⟩ :=
    step_cases hstep
  · exact hmem
  · exact hmem
  · exact hmem
  · exact List.mem_append_left _ hmem
  · exact hmem

end Step

end Handover

/-! ## The checkout -/

/-- How `checkout` ends before anything is unpacked in the guest. -/
inductive CheckoutError where
  | noSource (runId : String)
  | missing (path : List Bytes)
  | upload (e : UploadError)
  deriving Repr, DecidableEq

/-- `checkout`, up to the script that unpacks what was uploaded: the format, and the guest. -/
def checkoutUpload {G : Type} (guest : UploadGuest G) (sandbox sid workdir : String)
    (sha256 : Bytes → String) (h : Handover) (runId : String) (files : Files Bytes Bytes) (g : G) :
    Except CheckoutError SourceFormat × G :=
  match (h.workspace runId).storedSource files with
  | none => (.error (.noSource runId), g)
  | some (format, path) => match files path with
    | some (.file bytes) =>
      match uploadBytes guest sandbox sid (remotePath format workdir) sha256 bytes g with
      | (.error e, g) => (.error (.upload e), g)
      | (.ok (), g) => (.ok format, g)
    | _ => (.error (.missing path), g)

/-- **A run is checked out with what was submitted for it.** Whatever any number of submits do from then
on, and whichever of their calls fail half way, the run's bytes are kept in the format they came in; a
job that is checked out finds them, and what it uploads is what the client encoded. -/
theorem source_handed_over (h : Handover) (hu : h.tar.Unpacks) {s s' : Site}
    (hs : h.machine.Reachable Machine.anyStep s) (hlater : h.machine.Reach Machine.anyStep s s')
    {runId : String} {source : SourceArchive} (hrun : (runId, source) ∈ s.runs) :
    (∀ other, (runId, other) ∈ s'.runs → other = source) ∧
    ∃ format bytes, SourceFormat.parse source.format = some format ∧
      Base64.decode source.contentBase64.toList = some bytes ∧ bytes.length ≤ h.maxBytes ∧
      (h.workspace runId).storedSource s'.files = some (format, (h.workspace runId).pathFor format) ∧
      s'.files ((h.workspace runId).pathFor format) = some (.file bytes) ∧
      ∀ (G : Type) (guest : UploadGuest G), guest.Decodes → ∀ sandbox sid workdir sha256 g,
        (∃ e g', checkoutUpload guest sandbox sid workdir sha256 h runId s'.files g =
          (.error (.upload e), g')) ∨
        ∃ g₁, guest.content g₁ (remotePath format workdir) = some bytes ∧
          checkoutUpload guest sandbox sid workdir sha256 h runId s'.files g = (.ok format,
            (guest.exec s!"{sid}.uv" (verifyScript (remotePath format workdir)) [] 120 g₁).2) := by
  obtain ⟨s₀, h₀, hr⟩ := hs
  have hI := Handover.inv_reachable hu (⟨s₀, h₀, hr.trans hlater⟩ : h.machine.Reachable _ s')
  have hrun' := Handover.runs_reach hlater hrun
  obtain ⟨-, -, format, bytes, hdecode, hholds⟩ := hI.recorded _ hrun'
  obtain ⟨hparse, hbase64, hlen⟩ := decodeSource_ok_iff.mp hdecode
  have hstored : (h.workspace runId).storedSource s'.files = some (format, _) :=
    Workspace.storedSource_eq (by rw [hholds.here]; rfl) hholds.other
  refine ⟨fun other hother => ?_, format, bytes, hparse, hbase64, hlen, hstored, hholds.here,
    fun G guest hguest sandbox sid workdir sha256 g => ?_⟩
  · exact (Prod.mk.inj (List.inj_on_of_nodup_map hI.runs hother hrun' rfl)).2
  · have hcheckout : checkoutUpload guest sandbox sid workdir sha256 h runId s'.files g =
        match uploadBytes guest sandbox sid (remotePath format workdir) sha256 bytes g with
        | (.error e, g) => (.error (.upload e), g)
        | (.ok (), g) => (.ok format, g) := by
      rw [checkoutUpload, hstored]
      dsimp only
      rw [hholds.here]
    cases hup : uploadBytes guest sandbox sid (remotePath format workdir) sha256 bytes g with
    | mk result g' =>
      rw [hup] at hcheckout
      cases result with
      | error e => exact Or.inl ⟨e, g', hcheckout⟩
      | ok u =>
        obtain ⟨g₁, hcontent, rfl⟩ := uploadBytes_written hguest hup
        exact Or.inr ⟨g₁, hcontent, hcheckout⟩

/-- A directory of workspaces with nothing in it. -/
def emptyHandover : Handover where
  dir := []
  maxBytes := 1024
  max_lt := by decide
  tar := plainTar []
  base64Error := fun _ => "Invalid padding"

/-- The calls for a bundle and one workflow file. -/
def bundleRun : List HandoverLabel :=
  [.submit "0-1" ⟨"git-bundle", "aGk="⟩, .call 0 .ok, .call 0 .ok, .call 0 .ok, .call 0 (.failed []),
    .call 0 .ok, .record 0]

theorem source_handed_over_bundle : ∃ s, emptyHandover.machine.Reachable Machine.anyStep s ∧
    ("0-1", ⟨"git-bundle", "aGk="⟩) ∈ s.runs ∧
    s.files ((emptyHandover.workspace "0-1").pathFor .gitBundle) = some (.file [104, 105]) := by
  let empty : Site := ⟨fun p => if p = [] then some .dir else none, [], [], []⟩
  have hinit : emptyHandover.machine.init empty := ⟨rfl, fun p _ hp => if_neg hp, rfl, rfl, rfl⟩
  have hruns : (emptyHandover.machine.run empty bundleRun).map (·.runs) =
      some [("0-1", ⟨"git-bundle", "aGk="⟩)] := by decide
  obtain ⟨s, hs, hlast⟩ := Option.map_eq_some_iff.mp hruns
  have hmem : ("0-1", ⟨"git-bundle", "aGk="⟩) ∈ s.runs := by
    rw [hlast]
    exact List.mem_cons_self
  have hr := Machine.reachable_of_run hinit hs
  refine ⟨s, hr, hmem, ?_⟩
  obtain ⟨-, format, bytes, hparse, hbytes, -, -, hhere, -⟩ :=
    source_handed_over emptyHandover (unpacks_plainTar []) hr Machine.Reach.refl hmem
  have hformat : SourceFormat.parse "git-bundle" = some .gitBundle := by decide
  have hdecoded : Base64.decode "aGk=".toList = some [104, 105] := by decide
  cases hparse.symm.trans hformat
  cases hbytes.symm.trans hdecoded
  exact hhere

end HeyoCi
