import HeyoCi.Submit.Tree

/-!
# What the server reads lies in the submitted tree

Paths are checked as they are written, and followed through whatever links the tree has. The walk of
a context passes links over; the paths to the Dockerfile, to the context, to the files of the
fingerprint and to the workflow files go through them.

* `ReadsInside`: every file that is hashed, shipped or returned was reached inside the workspace;
* `Host.LeadsInside`: a path leads where it leads without leaving the workspace;
* `ImageInside`, `FingerprintInside`, `WorkflowsInside`: the paths that are read lead inside;
* **`readsInside_iff`**: what is read lies inside exactly when these paths do;
* **`readsInside_of_noLinks`**: so it does in a tree without links;
* `link_leaves_tree`: a link to a file of the host.
-/

namespace HeyoCi

open FileTree

/-- A file was reached at or below the workspace, and no position on the way was outside of it. -/
def Opened.Inside (ws : List String) (o : Opened) : Prop := o.spot.Within ws

/-- Every file whose content is hashed and shipped by `plan_for`, hashed by `fingerprint`, or
returned by `find_workflows`, was reached inside the workspace. -/
structure ReadsInside (h : Host) (ws : List String) (vm : VmBlock) (pattern : String) : Prop where
  image : ∀ build, vm.build = some build → ∀ dockerfile files,
    planReads h ws build = .ok (dockerfile, files) →
      dockerfile.1.Inside ws ∧ ∀ f ∈ files, f.2.Inside ws
  fingerprint : ∀ f ∈ (fingerprintReads h ws vm).1, ∀ o, f.2 = some o → o.Inside ws
  workflows : ∀ found, workflowReads h ws pattern = .ok found → ∀ f ∈ found, f.2.1.Inside ws

namespace Host

variable (h : Host) (ws : List String)

/-- Where a path leads, it leads without leaving the workspace. -/
def LeadsInside (path : Path String) : Prop := ∀ s, h.leads ws (fun _ => true) path = .ok s →
  h.leads ws (ws.isPrefixOf ·) path = .ok s

/-- Everything in the directory that a path leads to can be read, links apart. -/
def Legible (path : Path String) : Prop := ∀ s entries, h.find ws path = .ok (s, .dir entries) →
  h.denied s.pos = false ∧ ∀ x ∈ entriesUnder entries, blocked h (s.pos ++ x.1) x.2 = false

/-- There is a file below the directory that a path leads to. -/
def HasFile (path : Path String) : Prop := ∃ s entries, h.find ws path = .ok (s, .dir entries) ∧
  ∃ x ∈ entriesUnder entries, ∃ content, x.2 = .file content

/-- A path leads to a file that can be read. -/
def Readable (path : Path String) : Prop := ∃ o, h.read ws path = .ok o

/-- A path leads to a text that can be read. -/
def HasText (path : Path String) : Prop := ∃ found, h.readToString ws path = .ok found

variable {h ws}

/-- A path leads somewhere inside exactly when it leads there and the way is inside. -/
theorem leads_inside {path : Path String} {s : Spot String} :
    h.leads ws (ws.isPrefixOf ·) path = .ok s ↔
      h.leads ws (fun _ => true) path = .ok s ∧ s.Within ws := by
  have hresolve : ∀ s₀ : Spot String, s₀.Within ws → ∀ steps,
      resolve h.root (ws.isPrefixOf ·) maxLinks s₀ steps = .ok s ↔
        resolve h.root (fun _ => true) maxLinks s₀ steps = .ok s ∧ s.Within ws := by
    intro s₀ h₀ steps
    rw [resolve_ok_iff fun p hp => List.isPrefixOf_iff_prefix.mpr (h₀ p hp)]
    simp only [Spot.Within, List.isPrefixOf_iff_prefix]
  have hstart : (⟨ws, []⟩ : Spot String).Within ws := fun p hp => by
    rw [List.mem_singleton.mp hp]
  unfold leads
  split_ifs with habs
  · rw [Spot.go_bind, Spot.go_bind, List.isPrefixOf_iff_prefix]
    constructor
    · rintro ⟨hnil, hs⟩
      have := (hresolve _ (Spot.within_move.mpr ⟨hnil, hstart⟩) _).mp hs
      exact ⟨⟨rfl, this.1⟩, this.2⟩
    · rintro ⟨⟨-, hs⟩, hin⟩
      have hnil : ws <+: [] := hin [] (seen_resolve hs [] List.mem_cons_self)
      exact ⟨hnil, (hresolve _ (Spot.within_move.mpr ⟨hnil, hstart⟩) _).mpr ⟨hs, hin⟩⟩
  · exact hresolve _ hstart _

theorem leadsInside_iff {path : Path String} {s : Spot String}
    (hs : h.leads ws (fun _ => true) path = .ok s) : h.LeadsInside ws path ↔ s.Within ws := by
  constructor
  · exact fun hin => (leads_inside.mp (hin s hs)).2
  · intro hw s' hs'
    cases hs.symm.trans hs'
    exact leads_inside.mpr ⟨hs, hw⟩

theorem leads_of_find {path : Path String} {s : Spot String} {node : FileTree.Node String Bytes}
    (hf : h.find ws path = .ok (s, node)) : h.leads ws (fun _ => true) path = .ok s := by
  unfold find at hf
  cases hl : h.leads ws (fun _ => true) path with
  | error e =>
    rw [hl] at hf
    cases hf
  | ok s' =>
    rw [hl] at hf
    simp only [Except.bind] at hf
    split at hf
    · cases hf
      rfl
    · cases hf

theorem find_of_read {path : Path String} {o : Opened} (hr : h.read ws path = .ok o) :
    h.find ws path = .ok (o.spot, .file o.content) := by
  unfold read at hr
  cases hf : h.find ws path with
  | error e =>
    rw [hf] at hr
    cases hr
  | ok found =>
    obtain ⟨s, node⟩ := found
    rw [hf] at hr
    cases node with
    | file content =>
      simp only [Except.bind] at hr
      split_ifs at hr
      cases hr
      rfl
    | dir | link => cases hr

/-- A file that was read is inside exactly when its path leads inside. -/
theorem inside_of_read {path : Path String} {o : Opened} (hr : h.read ws path = .ok o) :
    o.Inside ws ↔ h.LeadsInside ws path := (leadsInside_iff (leads_of_find (find_of_read hr))).symm

theorem read_of_readToString {path : Path String} {found : Opened × String}
    (hr : h.readToString ws path = .ok found) : h.read ws path = .ok found.1 := by
  unfold readToString at hr
  split at hr
  · cases hr
  · rename_i o ho
    split at hr
    · cases hr
      exact ho
    · cases hr

end Host

/-! ## The image -/

section Image

variable {h : Host} {ws : List String} {build : ImageBuild}

/-- When the Dockerfile is a text and the context can be read, the path to the Dockerfile leads
inside, and so does the path to a context with a file in it. -/
def ImageInside (h : Host) (ws : List String) (build : ImageBuild) : Prop :=
  h.HasText ws (parsePath build.dockerfile) → h.Legible ws (parsePath build.contextDir) →
    h.LeadsInside ws (parsePath build.dockerfile) ∧
      (h.HasFile ws (parsePath build.contextDir) → h.LeadsInside ws (parsePath build.contextDir))

theorem planReads_ok {dockerfile : Opened × String} {files : List (String × Opened)} :
    planReads h ws build = .ok (dockerfile, files) ↔
      h.readToString ws (parsePath build.dockerfile) = .ok dockerfile ∧
        ∃ found, contextFiles h ws build = .ok found ∧
          files = List.insertionSort (fun f g => f.1 ≤ g.1) found := by
  unfold planReads
  cases h.readToString ws (parsePath build.dockerfile) with
  | error reason => simp
  | ok d =>
    cases contextFiles h ws build with
    | error e => simp [Except.map]
    | ok found => simp [Except.map, eq_comm]

/-- The context is walked to its end exactly when it is legible. -/
theorem contextFiles_iff : (∃ found, contextFiles h ws build = .ok found) ↔
    h.Legible ws (parsePath build.contextDir) := by
  unfold Host.Legible contextFiles
  cases h.find ws (parsePath build.contextDir) with
  | error e => exact iff_of_true ⟨[], rfl⟩ nofun
  | ok found =>
    obtain ⟨s, node⟩ := found
    cases node with
    | file | link => exact iff_of_true ⟨[], rfl⟩ nofun
    | dir entries =>
      simp only [walk_ok_iff, exists_and_left, exists_eq, and_true]
      constructor
      · rintro hall s' entries' he
        cases he
        exact hall
      · exact fun hall => hall s entries rfl

/-- What is found in a context is a file below the directory the path leads to. -/
theorem mem_contextFiles {found : List (String × Opened)}
    (hfound : contextFiles h ws build = .ok found) {f : String × Opened} : f ∈ found ↔
      ∃ s entries, h.find ws (parsePath build.contextDir) = .ok (s, .dir entries) ∧
        ∃ x ∈ entriesUnder entries, ∃ content, x.2 = .file content ∧
          f = (relOf x.1, ⟨s.down x.1, content⟩) := by
  unfold contextFiles at hfound
  split at hfound
  · rename_i s entries hf
    obtain ⟨-, rfl⟩ := walk_ok_iff.mp hfound
    rw [List.mem_filterMap]
    constructor
    · rintro ⟨x, hx, hw⟩
      refine ⟨s, entries, hf, x, hx, ?_⟩
      cases hn : x.2 with
      | file content =>
        rw [hn] at hw
        exact ⟨content, rfl, (Option.some.inj hw).symm⟩
      | dir | link =>
        rw [hn] at hw
        cases hw
    · rintro ⟨s', entries', hf', x, hx, content, hc, rfl⟩
      cases hf.symm.trans hf'
      exact ⟨x, hx, by rw [hc]; rfl⟩
  · rename_i hno
    cases hfound
    refine iff_of_false List.not_mem_nil ?_
    rintro ⟨s, entries, hf, -⟩
    exact hno s entries hf

theorem image_inside_iff : (∀ dockerfile files, planReads h ws build = .ok (dockerfile, files) →
      dockerfile.1.Inside ws ∧ ∀ f ∈ files, f.2.Inside ws) ↔ ImageInside h ws build := by
  unfold ImageInside
  constructor
  · rintro hall ⟨dockerfile, hd⟩ hleg
    obtain ⟨found, hfound⟩ := contextFiles_iff.mpr hleg
    obtain ⟨hin, hfiles⟩ := hall dockerfile _ (planReads_ok.mpr ⟨hd, found, hfound, rfl⟩)
    refine ⟨(Host.inside_of_read (Host.read_of_readToString hd)).mp hin, ?_⟩
    rintro ⟨s, entries, hf, x, hx, content, hc⟩
    have hmem := (mem_contextFiles hfound).mpr ⟨s, entries, hf, x, hx, content, hc, rfl⟩
    have hdown := hfiles _ ((List.mem_insertionSort _).mpr hmem)
    exact (Host.leadsInside_iff (Host.leads_of_find hf)).mpr ((Spot.within_down _).mp hdown)
  · intro hcond dockerfile files hplan
    obtain ⟨hd, found, hfound, rfl⟩ := planReads_ok.mp hplan
    obtain ⟨hin, hctx⟩ := hcond ⟨dockerfile, hd⟩ (contextFiles_iff.mp ⟨found, hfound⟩)
    refine ⟨(Host.inside_of_read (Host.read_of_readToString hd)).mpr hin, fun f hf => ?_⟩
    obtain ⟨s, entries, hfind, x, hx, content, hc, rfl⟩ :=
      (mem_contextFiles hfound).mp ((List.mem_insertionSort _).mp hf)
    have hlead := hctx ⟨s, entries, hfind, x, hx, content, hc⟩
    exact (Spot.within_down _).mpr ((Host.leadsInside_iff (Host.leads_of_find hfind)).mp hlead)

end Image

/-! ## The fingerprint -/

section Fingerprint

variable {h : Host} {ws : List String} {vm : VmBlock}

/-- The fingerprint goes on after a file: it is read, or there is none. -/
def Settled (h : Host) (ws : List String) (rel : String) : Prop := escaping rel = false ∧
  '\x00' ∉ rel.toList ∧ (h.Readable ws (parsePath rel) ∨ h.read ws (parsePath rel) = .error .notFound)

/-- The path to a file that can be read leads inside, if the fingerprint gets that far. -/
def FingerprintInside (h : Host) (ws : List String) (vm : VmBlock) : Prop :=
  ∀ pre rel post, vm.keyFiles = pre ++ rel :: post → (∀ x ∈ pre, Settled h ws x) →
    escaping rel = false → '\x00' ∉ rel.toList → h.Readable ws (parsePath rel) →
      h.LeadsInside ws (parsePath rel)

theorem keyFile_ok_iff {rel : String} : (∃ bs, keyFile h ws rel = .ok bs) ↔ Settled h ws rel := by
  unfold keyFile Settled Host.Readable
  cases he : escaping rel with
  | true => simp
  | false =>
    by_cases hnul : '\x00' ∈ rel.toList
    · simp [hnul]
    · rw [if_neg Bool.false_ne_true, if_neg hnul]
      cases h.read ws (parsePath rel) with
      | ok o => simp [hnul]
      | error e => cases e <;> simp [hnul]

theorem mem_keyFile {rel : String} {bs : List (String × Option Opened)}
    (hk : keyFile h ws rel = .ok bs) {f : String × Option Opened} (hf : f ∈ bs) {o : Opened}
    (ho : f.2 = some o) :
    escaping rel = false ∧ '\x00' ∉ rel.toList ∧ h.read ws (parsePath rel) = .ok o := by
  unfold keyFile at hk
  cases he : escaping rel with
  | true =>
    rw [he] at hk
    cases hk
  | false =>
    rw [he, if_neg Bool.false_ne_true, Loop.guard_ok_iff] at hk
    obtain ⟨hnul, hk⟩ := hk
    refine ⟨rfl, hnul, ?_⟩
    split at hk
    · rename_i o' hr
      cases hk
      rw [List.mem_singleton.mp hf] at ho
      rw [hr, Option.some.inj ho]
    · cases hk
      rw [List.mem_singleton.mp hf] at ho
      cases ho
    · cases hk

theorem fingerprint_inside_iff : (∀ f ∈ (fingerprintReads h ws vm).1, ∀ o, f.2 = some o →
    o.Inside ws) ↔ FingerprintInside h ws vm := by
  unfold FingerprintInside fingerprintReads
  constructor
  · rintro hall pre rel post hsplit hpre he hnul ⟨o, hr⟩
    have hkey : keyFile h ws rel = .ok [(rel, some o)] := by
      rw [keyFile, he, if_neg Bool.false_ne_true, if_neg hnul, hr]
    have hmem : (rel, some o) ∈ (Loop.collect (keyFile h ws) vm.keyFiles).1 :=
      Loop.mem_collect.mpr ⟨pre, rel, post, _, hsplit, fun x hx => keyFile_ok_iff.mpr (hpre x hx),
        hkey, List.mem_singleton_self _⟩
    exact (Host.inside_of_read hr).mp (hall _ hmem o rfl)
  · intro hcond f hf o ho
    obtain ⟨pre, rel, post, bs, hsplit, hpre, hkey, hmem⟩ := Loop.mem_collect.mp hf
    obtain ⟨he, hnul, hr⟩ := mem_keyFile hkey hmem ho
    exact (Host.inside_of_read hr).mpr
      (hcond pre rel post hsplit (fun x hx => keyFile_ok_iff.mp (hpre x hx)) he hnul ⟨o, hr⟩)

end Fingerprint

/-! ## The workflow files -/

section Workflows

variable {h : Host} {ws : List String} {dir file : String}

/-- An entry of a directory is a workflow file. -/
def IsWorkflow (h : Host) (ws : List String) (dir file name : String) : Prop :=
  matchesPattern name file = true ∧ h.isFile ws (entryPath dir name) = true

/-- When all workflow files of a directory are texts, their paths lead inside. -/
def EntriesInside (h : Host) (ws : List String) (dir file : String) : Prop := ∀ s entries,
  h.readDir ws (parsePath dir) = .ok (s, entries) →
  (∀ e ∈ entries, IsWorkflow h ws dir file e.1 → h.HasText ws (entryPath dir e.1)) →
  ∀ e ∈ entries, IsWorkflow h ws dir file e.1 → h.LeadsInside ws (entryPath dir e.1)

/-- The workflow files of a pattern that is not refused lie inside. -/
def WorkflowsInside (h : Host) (ws : List String) (pattern : String) : Prop :=
  escaping (trimPattern pattern) = false →
    EntriesInside h ws (splitPattern (trimPattern pattern)).1 (splitPattern (trimPattern pattern)).2

/-- An entry that is no workflow file yields nothing; one that is yields its text. -/
theorem workflowEntry_ok {name : String} {bs : List (String × Opened × String)} :
    workflowEntry h ws dir file name = .ok bs ↔
      (¬ IsWorkflow h ws dir file name ∧ bs = []) ∨ (IsWorkflow h ws dir file name ∧
        ∃ found, h.readToString ws (entryPath dir name) = .ok found ∧
          bs = [(if dir.isEmpty then name else s!"{dir}/{name}", found)]) := by
  have hok : ∀ cs : List (String × Opened × String),
      (.ok cs : Except TriggerError (List (String × Opened × String))) = .ok bs ↔ bs = cs :=
    fun cs => ⟨fun he => (Except.ok.inj he).symm, fun he => by rw [he]⟩
  unfold workflowEntry IsWorkflow
  cases matchesPattern name file with
  | false => simp [hok]
  | true =>
    cases h.isFile ws (entryPath dir name) with
    | false => simp [hok]
    | true =>
      cases h.readToString ws (entryPath dir name) with
      | error reason => simp
      | ok found => simp [hok]

/-- Every entry yields something exactly when all workflow files are texts. -/
theorem workflowEntry_ok_iff {name : String} :
    (∃ bs, workflowEntry h ws dir file name = .ok bs) ↔
      (IsWorkflow h ws dir file name → h.HasText ws (entryPath dir name)) := by
  simp only [workflowEntry_ok]
  by_cases hw : IsWorkflow h ws dir file name
  · simp [hw, Host.HasText]
  · simp [hw]

/-- What a directory yields lies inside exactly when the paths of its workflow files do. -/
theorem entries_inside_iff : (∀ s entries, h.readDir ws (parsePath dir) = .ok (s, entries) →
    (Loop.collect (workflowEntry h ws dir file) (entries.map (·.1))).2 = none →
    ∀ f ∈ (Loop.collect (workflowEntry h ws dir file) (entries.map (·.1))).1, f.2.1.Inside ws) ↔
      EntriesInside h ws dir file := by
  unfold EntriesInside
  refine forall_congr' fun s => forall_congr' fun entries => imp_congr_right fun hd => ?_
  rw [Loop.collect_ok_iff]
  simp only [List.forall_mem_map, workflowEntry_ok_iff]
  refine imp_congr_right fun htext => ?_
  constructor
  · intro hall e he hw
    obtain ⟨found, hr⟩ := htext e he hw
    obtain ⟨pre, post, hsplit⟩ := List.append_of_mem he
    have hmem : (if dir.isEmpty then e.1 else s!"{dir}/{e.1}", found) ∈
        (Loop.collect (workflowEntry h ws dir file) (entries.map (·.1))).1 := by
      refine Loop.mem_collect.mpr ⟨pre.map (·.1), e.1, post.map (·.1), _, ?_, ?_,
        workflowEntry_ok.mpr (Or.inr ⟨hw, found, hr, rfl⟩), List.mem_singleton_self _⟩
      · rw [hsplit, List.map_append, List.map_cons]
      · intro x hx
        obtain ⟨e', he', rfl⟩ := List.mem_map.mp hx
        refine workflowEntry_ok_iff.mpr (htext e' ?_)
        rw [hsplit]
        exact List.mem_append_left _ he'
    exact (Host.inside_of_read (Host.read_of_readToString hr)).mp (hall _ hmem)
  · intro hin f hf
    obtain ⟨pre, name, post, bs, hsplit, -, hbs, hmem⟩ := Loop.mem_collect.mp hf
    have hname : name ∈ entries.map (·.1) := by
      rw [hsplit]
      exact List.mem_append_right _ List.mem_cons_self
    obtain ⟨e, he, rfl⟩ := List.mem_map.mp hname
    rcases workflowEntry_ok.mp hbs with ⟨-, rfl⟩ | ⟨hw, found, hr, rfl⟩
    · exact absurd hmem List.not_mem_nil
    · rw [List.mem_singleton.mp hmem]
      exact (Host.inside_of_read (Host.read_of_readToString hr)).mpr (hin e he hw)

theorem workflows_inside_iff {pattern : String} : (∀ found, workflowReads h ws pattern = .ok found →
    ∀ f ∈ found, f.2.1.Inside ws) ↔ WorkflowsInside h ws pattern := by
  unfold WorkflowsInside workflowReads
  simp only
  cases escaping (trimPattern pattern) with
  | true => exact iff_of_true nofun nofun
  | false =>
    rw [if_neg Bool.false_ne_true, imp_iff_right rfl, ← entries_inside_iff]
    generalize splitPattern (trimPattern pattern) = dirFile
    cases h.readDir ws (parsePath dirFile.1) with
    | error e =>
      refine iff_of_true ?_ nofun
      rintro found hfound f hf
      cases hfound
      exact absurd hf List.not_mem_nil
    | ok listed =>
      obtain ⟨s, entries⟩ := listed
      constructor
      · intro hall s' entries' he hnone f hf
        cases he
        refine hall (List.insertionSort (fun f g => f.1 ≤ g.1) _) ?_ f
          ((List.mem_insertionSort _).mpr hf)
        simp only
        split
        · rename_i e hcol
          rw [hcol] at hnone
          cases hnone
        · rename_i found hcol
          rw [hcol]
      · intro hall found hfound f hf
        simp only at hfound
        split at hfound
        · cases hfound
        · rename_i found' hcol
          cases hfound
          refine hall s entries rfl (by rw [hcol]) f ?_
          rw [hcol]
          exact (List.mem_insertionSort _).mp hf

end Workflows

/-- **What is read lies inside the workspace exactly when the paths that are read lead inside.** -/
theorem readsInside_iff (h : Host) (ws : List String) (vm : VmBlock) (pattern : String) :
    ReadsInside h ws vm pattern ↔ (∀ build, vm.build = some build → ImageInside h ws build) ∧
      FingerprintInside h ws vm ∧ WorkflowsInside h ws pattern := by
  simp only [← image_inside_iff, ← fingerprint_inside_iff, ← workflows_inside_iff]
  exact ⟨fun hr => ⟨hr.image, hr.fingerprint, hr.workflows⟩, fun hr => ⟨hr.1, hr.2.1, hr.2.2⟩⟩

/-! ## Without links -/

section NoLinks

variable {h : Host} {ws : List String}

/-- A path with no `..` that is not absolute leads inside, where there are no links. -/
theorem leadsInside_of_noLinks (hno : NoLinks h.root ws) {path : Path String}
    (habs : path.absolute = false) (hup : FileTree.Step.up ∉ path.steps) :
    h.LeadsInside ws path := by
  intro s hs
  refine Host.leads_inside.mpr ⟨hs, ?_⟩
  rw [Host.leads, habs, if_neg Bool.false_ne_true] at hs
  refine within_of_noLinks hno hup (fun p hp => ?_) hs
  rw [List.mem_singleton.mp hp]

theorem leadsInside_parsePath (hno : NoLinks h.root ws) {path : String}
    (he : escaping path = false) : h.LeadsInside ws (parsePath path) :=
  leadsInside_of_noLinks hno (absolute_parsePath he) (up_notMem_parsePath he)

theorem validate_build {vm : VmBlock} (hv : vm.validate = .ok ()) {build : ImageBuild}
    (hb : vm.build = some build) : build.validate vm.image = .ok () := by
  unfold VmBlock.validate at hv
  rw [hb, Option.elim_some] at hv
  by_cases hd : vm.driver = .libvirt
  · rw [if_pos hd] at hv
    cases hv
  · rw [if_neg hd] at hv
    cases hc : build.validate vm.image with
    | error e =>
      rw [hc] at hv
      cases hv
    | ok => rfl

/-- The paths of an accepted build do not escape, and it asks for no image of size zero. -/
theorem paths_of_validate {image : Option String} {build : ImageBuild}
    (hbuild : build.validate image = .ok ()) : escaping build.dockerfile = false ∧
      escaping build.contextDir = false ∧ build.sizeMb ≠ some 0 := by
  unfold ImageBuild.validate at hbuild
  rw [Loop.guard_ok_iff] at hbuild
  obtain ⟨-, hbuild⟩ := hbuild
  cases hf : [build.dockerfile, build.contextDir].find? escaping with
  | some path =>
    rw [hf] at hbuild
    cases hbuild
  | none =>
    rw [hf] at hbuild
    simp only [Loop.guard_ok_iff] at hbuild
    have hpaths := List.find?_eq_none.mp hf
    simp only [List.forall_mem_cons, Bool.not_eq_true] at hpaths
    exact ⟨hpaths.1, hpaths.2.1, hbuild.2.1⟩

/-- The directory of a pattern escapes only if the pattern does. -/
theorem escaping_splitPattern {pattern : String} (he : escaping pattern = false) :
    escaping (splitPattern pattern).1 = false := by
  unfold splitPattern
  cases hs : Text.splitLast ['/'] pattern.toList with
  | none => rfl
  | some parts =>
    obtain ⟨dir, file⟩ := parts
    have hcs : pattern.toList = dir ++ '/' :: file := Text.splitLast_eq hs
    rw [escaping, Bool.or_eq_false_iff, segments, hcs, List.splitOn_append_cons_self] at he
    obtain ⟨habs, hup⟩ := he
    rw [escaping, Bool.or_eq_false_iff, segments, String.toList_ofList]
    constructor
    · cases dir with
      | nil => rfl
      | cons c dir => exact habs
    · rw [List.map_append, List.contains_append, Bool.or_eq_false_iff] at hup
      exact hup.1

/-- **In a tree without links everything that is read lies inside**, as the checks of the paths
intend. -/
theorem readsInside_of_noLinks (hno : NoLinks h.root ws) {vm : VmBlock} (hv : vm.validate = .ok ())
    (pattern : String) : ReadsInside h ws vm pattern := by
  refine (readsInside_iff h ws vm pattern).mpr ⟨fun build hb _ _ => ?_, ?_, ?_⟩
  · obtain ⟨hd, hc, -⟩ := paths_of_validate (validate_build hv hb)
    exact ⟨leadsInside_parsePath hno hd, fun _ => leadsInside_parsePath hno hc⟩
  · intro pre rel post _ _ he _ _
    exact leadsInside_parsePath hno he
  · intro he s entries _ _ e _ _
    have hdir := escaping_splitPattern he
    generalize (splitPattern (trimPattern pattern)).1 = dir at hdir ⊢
    refine leadsInside_of_noLinks hno (absolute_parsePath hdir) fun hup => ?_
    rcases List.mem_append.mp hup with hup | hup
    · exact up_notMem_parsePath hdir hup
    · cases List.mem_singleton.mp hup

end NoLinks

section Link

private def linkedHost : Host where
  root := .dir [("etc", .dir [("passwd", .file [114, 111, 111, 116])]),
    ("srv", .dir [("Cargo.lock", .link ⟨true, [.name "etc", .name "passwd"]⟩)])]
  denied := fun _ => false

private def lockedVm : VmBlock where
  image := some "ubuntu:24.04"
  build := none
  reuse := false
  workingDirectory := none
  driver := .firecracker
  sizeClass := none
  diskSizeGb := none
  envVars := []
  setupHooks := []
  cacheKeyFiles := ["Cargo.lock"]
  ttlSeconds := none

/-- The checks pass, and the fingerprint reads a file of the host. -/
theorem link_leaves_tree : ¬ ∀ (h : Host) (ws : List String) (vm : VmBlock) (pattern : String),
    vm.validate = .ok () → ReadsInside h ws vm pattern := by
  intro hall
  have hreads := hall linkedHost ["srv"] lockedVm "" (by decide)
  have hread : (fingerprintReads linkedHost ["srv"] lockedVm).1 = [("Cargo.lock",
      some ⟨⟨["etc", "passwd"], [["etc"], [], ["srv"]]⟩, [114, 111, 111, 116]⟩)] := by rfl
  have hin := hreads.fingerprint _ (by rw [hread]; exact List.mem_singleton_self _) _ rfl
  exact absurd (hin ["etc"] (by decide)) (by decide)

end Link

end HeyoCi
