import Mathlib.Data.List.Destutter
import Mathlib.Data.String.Basic
import HeyoCi.Image.Hashes
import HeyoCi.Submit.Contained

/-!
# What a fingerprint tells

The key of a pool is a digest of the specification and of the files its job names, put one behind
the other.

* `VmBlock.keyFiles_eq_iff`: the list that is hashed is that of the files named, in no order;
* `fingerprint_ok_iff`: what is hashed; `Crates.JsonFramed`, `fingerprintHashed`: the encoding of a
  specification, and all that is hashed for a fingerprint;
* `SameFile`: a file is in both workspaces with one content, or in neither;
* **`fingerprint_eq_iff`**: fingerprints are equal exactly when what they are of is.
-/

namespace HeyoCi

open Framing

/-! ## The files of the list -/

section KeyFiles

variable {vm vm' : VmBlock} {h : Host} {ws : List String}

theorem VmBlock.keyFiles_eq_dedup (vm : VmBlock) :
    vm.keyFiles = (vm.cacheKeyFiles.insertionSort (· ≤ ·)).dedup :=
  (List.pairwise_insertionSort (· ≤ ·) vm.cacheKeyFiles).destutter_eq_dedup

theorem VmBlock.mem_keyFiles {rel : String} : rel ∈ vm.keyFiles ↔ rel ∈ vm.cacheKeyFiles := by
  rw [keyFiles_eq_dedup, List.mem_dedup, List.mem_insertionSort]

/-- Neither the order nor a repetition counts. -/
theorem VmBlock.keyFiles_eq_iff :
    vm.keyFiles = vm'.keyFiles ↔ ∀ rel, rel ∈ vm.cacheKeyFiles ↔ rel ∈ vm'.cacheKeyFiles := by
  constructor
  · intro heq rel
    rw [← mem_keyFiles, heq, mem_keyFiles]
  · intro hmem
    have hsorted : ∀ vm : VmBlock, vm.keyFiles.Pairwise (· ≤ ·) := by
      intro vm
      rw [keyFiles_eq_dedup]
      exact (List.pairwise_insertionSort (· ≤ ·) _).sublist (List.dedup_sublist _)
    refine List.Perm.eq_of_pairwise' (hsorted vm) (hsorted vm') ?_
    rw [keyFiles_eq_dedup, keyFiles_eq_dedup,
      List.perm_ext_iff_of_nodup (List.nodup_dedup _) (List.nodup_dedup _)]
    simpa using hmem

/-- A list of the same files, in another order or with repetitions, leaves the fingerprint as it is. -/
theorem fingerprint_of_same_list {c : Crates} {list : List String}
    (hmem : ∀ rel, rel ∈ list ↔ rel ∈ vm.cacheKeyFiles) :
    fingerprint c h ws { vm with cacheKeyFiles := list } = fingerprint c h ws vm := by
  have hkeys : VmBlock.keyFiles { vm with cacheKeyFiles := list } = vm.keyFiles :=
    VmBlock.keyFiles_eq_iff.mpr hmem
  rw [fingerprint, fingerprint, fingerprintReads, fingerprintReads, hkeys]

/-- What is found at a path of the list. -/
def keyContent (h : Host) (ws : List String) (rel : String) : Option Bytes :=
  (h.read ws (parsePath rel)).toOption.map (·.content)

theorem keyFile_of_settled {rel : String} (hs : Settled h ws rel) :
    keyFile h ws rel = .ok [(rel, (h.read ws (parsePath rel)).toOption)] := by
  obtain ⟨he, hnul, hread⟩ := hs
  rw [keyFile, he, if_neg Bool.false_ne_true, if_neg hnul]
  rcases hread with ⟨o, ho⟩ | hno
  · rw [ho]
    rfl
  · rw [hno]
    rfl

/-- A file is in both workspaces with one content, or in neither. -/
def SameFile (h₁ : Host) (ws₁ : List String) (h₂ : Host) (ws₂ : List String) (rel : String) : Prop :=
  (h₁.read ws₁ (parsePath rel) = .error .notFound ∧ h₂.read ws₂ (parsePath rel) = .error .notFound) ∨
    ∃ o₁ o₂, h₁.read ws₁ (parsePath rel) = .ok o₁ ∧ h₂.read ws₂ (parsePath rel) = .ok o₂ ∧
      o₁.content = o₂.content

theorem keyContent_eq_iff {h' : Host} {ws' : List String} {rel : String} (hs : Settled h ws rel)
    (hs' : Settled h' ws' rel) :
    keyContent h ws rel = keyContent h' ws' rel ↔ SameFile h ws h' ws' rel := by
  unfold keyContent SameFile
  rcases hs.2.2 with ⟨o, ho⟩ | hno <;> rcases hs'.2.2 with ⟨o', ho'⟩ | hno'
  · simp [ho, ho', Except.toOption]
  · simp [ho, hno', Except.toOption]
  · simp [hno, ho', Except.toOption]
  · simp [hno, hno', Except.toOption]

end KeyFiles

/-! ## What is hashed -/

/-- The mark of a file that is missing. -/
def absent : Bytes := utf8 "\x00ABSENT"

/-- A path, and the digest of what is found there. -/
def Crates.fileCode (c : Crates) (file : String × Option Bytes) : Bytes :=
  utf8 file.1 ++ [0] ++ file.2.elim absent c.sha256

/-- The files of the list, with what is found. -/
def keyEntries (h : Host) (ws : List String) (vm : VmBlock) : List (String × Option Bytes) :=
  vm.keyFiles.map fun rel => (rel, keyContent h ws rel)

section Hashed

variable {c : Crates} {h : Host} {ws : List String} {vm : VmBlock}

theorem fingerprint_ok_iff {f : String} : fingerprint c h ws vm = .ok f ↔
    ∃ json, c.vmJson { vm with cacheKeyFiles := [] } = .ok json ∧
      (∀ rel ∈ vm.keyFiles, Settled h ws rel) ∧
      f = c.digest (json ++ (keyEntries h ws vm).flatMap c.fileCode) := by
  have hsettled : (fingerprintReads h ws vm).2 = none ↔ ∀ rel ∈ vm.keyFiles, Settled h ws rel := by
    rw [fingerprintReads, Loop.collect_ok_iff]
    simp only [keyFile_ok_iff]
  unfold fingerprint
  cases c.vmJson { vm with cacheKeyFiles := [] } with
  | error e => simp
  | ok json =>
    by_cases hall : ∀ rel ∈ vm.keyFiles, Settled h ws rel
    · have hreads : fingerprintReads h ws vm =
          (vm.keyFiles.map fun rel => (rel, (h.read ws (parsePath rel)).toOption), none) :=
        Loop.collect_map fun rel hrel => keyFile_of_settled (hall rel hrel)
      have hbytes : ∀ code : String × Option Opened → Bytes,
          (∀ rel file, code (rel, file) = c.fileCode (rel, file.map (·.content))) →
          (vm.keyFiles.map fun rel => (rel, (h.read ws (parsePath rel)).toOption)).flatMap code =
            (keyEntries h ws vm).flatMap c.fileCode := by
        intro code hcode
        rw [keyEntries, List.flatMap_map, List.flatMap_map]
        exact List.flatMap_congr fun rel _ => hcode rel _
      rw [hreads]
      simp only [Except.ok.injEq]
      rw [hbytes _ fun rel file => by cases file <;> rfl]
      simp only [exists_eq_left']
      rw [and_iff_right hall, eq_comm]
    · cases hreads : fingerprintReads h ws vm with
      | mk hashed e =>
        rw [hreads] at hsettled
        cases e with
        | none => exact absurd (hsettled.mp rfl) hall
        | some e => simp [hall]

/-- The encoding of a specification tells the specification, and where it ends. -/
def Crates.JsonFramed (c : Crates) : Prop := ∀ vm₁ vm₂ json₁ json₂ rest₁ rest₂,
  c.vmJson vm₁ = .ok json₁ → c.vmJson vm₂ = .ok json₂ → json₁ ++ rest₁ = json₂ ++ rest₂ → vm₁ = vm₂

/-- All that is hashed for a fingerprint: what is found, and the string whose digest it is. -/
def fingerprintHashed (c : Crates) (h : Host) (ws : List String) (vm : VmBlock) : Set Bytes :=
  {x | ∃ rel ∈ vm.keyFiles, keyContent h ws rel = some x} ∪
    {x | ∃ json, c.vmJson { vm with cacheKeyFiles := [] } = .ok json ∧
      x = json ++ (keyEntries h ws vm).flatMap c.fileCode}

variable {hashed : Set Bytes}

theorem length_absent : absent.length = 7 := by decide +kernel

theorem framedOn_fileCode (hc : c.Ideal hashed) (habs : ∀ x ∈ hashed, ¬ absent <+: c.sha256 x) :
    FramedOn ({rel : String | '\x00' ∉ rel.toList} ×ˢ {o : Option Bytes | ∀ x ∈ o, x ∈ hashed})
      c.fileCode := by
  refine framedOn_name.pair (framedOn_marked hc.framedOn fun x hx => ⟨habs x hx, fun hpre => ?_⟩)
  have hle := hpre.length_le
  rw [hc.length x hx, length_absent] at hle
  omega

theorem mem_keyEntries (hs : ∀ rel ∈ vm.keyFiles, Settled h ws rel)
    (hin : fingerprintHashed c h ws vm ⊆ hashed) {file : String × Option Bytes}
    (hfile : file ∈ keyEntries h ws vm) :
    file ∈ {rel : String | '\x00' ∉ rel.toList} ×ˢ {o : Option Bytes | ∀ x ∈ o, x ∈ hashed} := by
  obtain ⟨rel, hrel, rfl⟩ := List.mem_map.mp hfile
  exact ⟨(hs rel hrel).2.1, fun x hx => hin (Or.inl ⟨rel, hrel, hx⟩)⟩

theorem keyEntries_eq_iff {h' : Host} {ws' : List String} {vm' : VmBlock} :
    keyEntries h ws vm = keyEntries h' ws' vm' ↔ vm.keyFiles = vm'.keyFiles ∧
      ∀ rel ∈ vm.keyFiles, keyContent h ws rel = keyContent h' ws' rel := by
  constructor
  · intro heq
    have hrels := congrArg (List.map Prod.fst) heq
    rw [keyEntries, keyEntries, List.map_map, List.map_map] at hrels
    have hkeys : vm.keyFiles = vm'.keyFiles := by simpa [Function.comp_def] using hrels
    rw [keyEntries, keyEntries, ← hkeys, List.map_inj_left] at heq
    exact ⟨hkeys, fun rel hrel => (Prod.mk.inj (heq rel hrel)).2⟩
  · rintro ⟨hkeys, hcontent⟩
    rw [keyEntries, keyEntries, ← hkeys, List.map_inj_left]
    exact fun rel hrel => congrArg (Prod.mk rel) (hcontent rel hrel)

end Hashed

/-- **Two fingerprints are equal exactly when the specifications are, the list apart, and the same
files are named, each of which is missing from both workspaces or in both with one content.** -/
theorem fingerprint_eq_iff {c : Crates} {hashed : Set Bytes} (hc : c.Ideal hashed)
    (habs : ∀ x ∈ hashed, ¬ absent <+: c.sha256 x) (hjson : c.JsonFramed) {h₁ h₂ : Host}
    {ws₁ ws₂ : List String} {vm₁ vm₂ : VmBlock} {f₁ f₂ : String}
    (hin₁ : fingerprintHashed c h₁ ws₁ vm₁ ⊆ hashed) (hin₂ : fingerprintHashed c h₂ ws₂ vm₂ ⊆ hashed)
    (hf₁ : fingerprint c h₁ ws₁ vm₁ = .ok f₁) (hf₂ : fingerprint c h₂ ws₂ vm₂ = .ok f₂) :
    f₁ = f₂ ↔ { vm₁ with cacheKeyFiles := [] } = { vm₂ with cacheKeyFiles := [] } ∧
      (∀ rel, rel ∈ vm₁.cacheKeyFiles ↔ rel ∈ vm₂.cacheKeyFiles) ∧
      ∀ rel ∈ vm₁.cacheKeyFiles, SameFile h₁ ws₁ h₂ ws₂ rel := by
  obtain ⟨json₁, hj₁, hs₁, rfl⟩ := fingerprint_ok_iff.mp hf₁
  obtain ⟨json₂, hj₂, hs₂, rfl⟩ := fingerprint_ok_iff.mp hf₂
  have hstring : c.digest (json₁ ++ (keyEntries h₁ ws₁ vm₁).flatMap c.fileCode) =
      c.digest (json₂ ++ (keyEntries h₂ ws₂ vm₂).flatMap c.fileCode) ↔
      json₁ ++ (keyEntries h₁ ws₁ vm₁).flatMap c.fileCode =
        json₂ ++ (keyEntries h₂ ws₂ vm₂).flatMap c.fileCode :=
    ⟨hc.inj (hin₁ (Or.inr ⟨_, hj₁, rfl⟩)) (hin₂ (Or.inr ⟨_, hj₂, rfl⟩)), congrArg c.digest⟩
  have hfiles : vm₁.keyFiles = vm₂.keyFiles →
      ((∀ rel ∈ vm₁.keyFiles, keyContent h₁ ws₁ rel = keyContent h₂ ws₂ rel) ↔
        ∀ rel ∈ vm₁.cacheKeyFiles, SameFile h₁ ws₁ h₂ ws₂ rel) := by
    intro hkeys
    simp only [← VmBlock.mem_keyFiles]
    exact forall₂_congr fun rel hrel => keyContent_eq_iff (hs₁ rel hrel) (hs₂ rel (hkeys ▸ hrel))
  rw [hstring]
  constructor
  · intro heq
    have hspec := hjson _ _ _ _ _ _ hj₁ hj₂ heq
    rw [hspec] at hj₁
    cases hj₁.symm.trans hj₂
    have hentries := (framedOn_fileCode hc habs).flatMap_inj (fun _ _ => by simp [Crates.fileCode])
      (fun _ => mem_keyEntries hs₁ hin₁) (fun _ => mem_keyEntries hs₂ hin₂)
      (List.append_cancel_left heq)
    obtain ⟨hkeys, hcontent⟩ := keyEntries_eq_iff.mp hentries
    exact ⟨hspec, VmBlock.keyFiles_eq_iff.mp hkeys, (hfiles hkeys).mp hcontent⟩
  · rintro ⟨hspec, hmem, hsame⟩
    have hkeys := VmBlock.keyFiles_eq_iff.mpr hmem
    rw [hspec] at hj₁
    cases hj₁.symm.trans hj₂
    rw [keyEntries_eq_iff.mpr ⟨hkeys, (hfiles hkeys).mpr hsame⟩]

/-! ## A file that is added -/

/-- A workspace with the files given. -/
def srvHost (files : List (String × FileTree.Node String Bytes)) : Host where
  root := .dir [("srv", .dir files)]
  denied := fun _ => false

/-- A job whose VM depends on its toolchain. -/
def toolchainVm : VmBlock where
  image := some "ubuntu:24.04"
  build := none
  reuse := true
  workingDirectory := none
  driver := .firecracker
  sizeClass := none
  diskSizeGb := none
  envVars := []
  setupHooks := []
  cacheKeyFiles := ["rust-toolchain.toml"]
  ttlSeconds := none

/-- What is hashed of the specification. -/
def toolchainBare : VmBlock := { toolchainVm with cacheKeyFiles := [] }

def toolchainJson : Bytes := utf8 "\x7b\"driver\":\"firecracker\",\"image\":\"ubuntu:24.04\",\"reuse\":true\x7d"

/-- What is hashed where the file is missing. -/
def toolchainMissing : Bytes := toolchainJson ++ (utf8 "rust-toolchain.toml" ++ [0] ++ absent)

/-- The digests of no byte, of what is hashed where the file is missing, and of what is hashed where
it is there and empty; and the encoding of the specification. -/
def toolchainCrates : Crates where
  sha256 content :=
    if content = [] then [227, 176, 196, 66, 152, 252, 28, 20, 154, 251, 244, 200, 153, 111, 185, 36,
      39, 174, 65, 228, 100, 155, 147, 76, 164, 149, 153, 27, 120, 82, 184, 85]
    else if content = toolchainMissing then [108, 209, 0, 152, 75, 186, 200, 52, 169, 47, 65, 63, 35,
      64, 2, 226, 252, 97, 144, 238, 164, 245, 155, 171, 100, 166, 52, 9, 59, 74, 210, 31]
    else [57, 189, 28, 29, 11, 33, 184, 202, 176, 91, 150, 219, 221, 128, 64, 82, 14, 213, 215, 112,
      184, 107, 123, 72, 6, 30, 31, 82, 29, 249, 145, 20]
  vmJson vm := if vm = toolchainBare then .ok toolchainJson
    else .error "no such specification"
  packContext _ := .error "nothing to pack"

def toolchainEmpty : Bytes :=
  toolchainJson ++ (utf8 "rust-toolchain.toml" ++ [0] ++ toolchainCrates.sha256 [])

theorem toolchain_ideal : toolchainCrates.Ideal {x | x ∈ [[], toolchainMissing, toolchainEmpty]} where
  length x _ := by
    unfold toolchainCrates
    simp only
    split_ifs <;> rfl
  inj := by
    have hall : ∀ x ∈ [[], toolchainMissing, toolchainEmpty],
        ∀ y ∈ [[], toolchainMissing, toolchainEmpty],
        toolchainCrates.digest x = toolchainCrates.digest y → x = y := by decide +kernel
    exact fun x hx y hy => hall x hx y hy

theorem toolchain_jsonFramed : toolchainCrates.JsonFramed := by
  intro vm₁ vm₂ json₁ json₂ rest₁ rest₂ h₁ h₂ _
  unfold toolchainCrates at h₁ h₂
  simp only at h₁ h₂
  split_ifs at h₁ h₂ with hvm₁ hvm₂
  rw [hvm₁, hvm₂]

theorem toolchain_added : ∃ f₁ f₂,
    fingerprint toolchainCrates (srvHost []) ["srv"] toolchainVm = .ok f₁ ∧
    fingerprint toolchainCrates (srvHost [("rust-toolchain.toml", .file [])]) ["srv"] toolchainVm =
      .ok f₂ ∧ f₁ ≠ f₂ := by
  have hmissing : (srvHost []).read ["srv"] (parsePath "rust-toolchain.toml") = .error .notFound := rfl
  obtain ⟨o, hthere, hempty⟩ : ∃ o, (srvHost [("rust-toolchain.toml", .file [])]).read ["srv"]
      (parsePath "rust-toolchain.toml") = .ok o ∧ o.content = [] := ⟨_, rfl, rfl⟩
  have hkeys : toolchainVm.keyFiles = ["rust-toolchain.toml"] := by decide
  have hstep : ∀ files content, keyContent (srvHost files) ["srv"] "rust-toolchain.toml" = content →
      Settled (srvHost files) ["srv"] "rust-toolchain.toml" →
      (∀ x ∈ content, x ∈ [[], toolchainMissing, toolchainEmpty]) →
      toolchainJson ++ toolchainCrates.fileCode ("rust-toolchain.toml", content) ∈
        [[], toolchainMissing, toolchainEmpty] →
      (∃ f, fingerprint toolchainCrates (srvHost files) ["srv"] toolchainVm = .ok f) ∧
        fingerprintHashed toolchainCrates (srvHost files) ["srv"] toolchainVm ⊆
          {x | x ∈ [[], toolchainMissing, toolchainEmpty]} := by
    rintro files content rfl hs hx hstring
    have hentries : keyEntries (srvHost files) ["srv"] toolchainVm = [("rust-toolchain.toml",
        keyContent (srvHost files) ["srv"] "rust-toolchain.toml")] := by
      rw [keyEntries, hkeys, List.map_singleton]
    have hjson : toolchainCrates.vmJson { toolchainVm with cacheKeyFiles := [] } = .ok toolchainJson := by
      have hbare : toolchainCrates.vmJson toolchainBare = .ok toolchainJson := by
        simp [toolchainCrates]
      exact hbare
    refine ⟨⟨_, fingerprint_ok_iff.mpr ⟨_, hjson, ?_, rfl⟩⟩, ?_⟩
    · rw [hkeys]
      exact List.forall_mem_singleton.mpr hs
    · rintro x (⟨rel, hrel, hcontent⟩ | ⟨json, hj, rfl⟩)
      · rw [hkeys, List.mem_singleton] at hrel
        rw [hrel] at hcontent
        exact hx x hcontent
      · rw [hjson] at hj
        cases hj
        rw [hentries, List.flatMap_singleton]
        exact hstring
  obtain ⟨⟨f₁, hf₁⟩, hin₁⟩ := hstep [] none (by rw [keyContent, hmissing]; rfl)
    ⟨by decide, by decide, Or.inr hmissing⟩ (fun _ h => by cases h)
    (List.mem_cons_of_mem _ List.mem_cons_self)
  obtain ⟨⟨f₂, hf₂⟩, hin₂⟩ := hstep [("rust-toolchain.toml", .file [])] (some [])
    (by rw [keyContent, hthere, Except.toOption, Option.map_some, hempty])
    ⟨by decide, by decide, Or.inl ⟨o, hthere⟩⟩
    (fun x h => by cases h; exact List.mem_cons_self)
    (List.mem_cons_of_mem _ (List.mem_cons_of_mem _ List.mem_cons_self))
  refine ⟨f₁, f₂, hf₁, hf₂, fun heq => ?_⟩
  have habs : ∀ x ∈ {x | x ∈ [[], toolchainMissing, toolchainEmpty]},
      ¬ absent <+: toolchainCrates.sha256 x := by
    have hall : ∀ x ∈ [[], toolchainMissing, toolchainEmpty],
        ¬ absent <+: toolchainCrates.sha256 x := by decide +kernel
    exact hall
  have hsame := ((fingerprint_eq_iff toolchain_ideal habs toolchain_jsonFramed hin₁ hin₂ hf₁ hf₂).mp
    heq).2.2 "rust-toolchain.toml" List.mem_cons_self
  rcases hsame with ⟨-, hno⟩ | ⟨_, _, hyes, -⟩
  · rw [hthere] at hno
    cases hno
  · rw [hmissing] at hyes
    cases hyes

end HeyoCi
