import HeyoCi.Image.Hashes
import HeyoCi.Submit.Contained
import Std.Data.String.ToNat

/-!
# What the name of an image tells

The name of a built image is a digest of the Dockerfile, the driver, the size and the files of the
context, put one behind the other.

* `Host.Named`: no name of the host has a NUL; `relOf_named`: so no path of a context has one;
* `contextPairs`, `imageHashed`: what is packed, and all that is hashed for a name;
* `planFor_ok`: what a plan is; `framedOn_sizeCode`: no size is asked for by the size zero;
* **`image_name_eq_iff`**: names are equal exactly when what they are of is.
-/

namespace HeyoCi

open FileTree Framing

/-! ## Names -/

/-- No name of the host has a NUL. -/
def Host.Named (h : Host) : Prop := ∀ x ∈ h.root.under, ∀ n ∈ x.1, '\x00' ∉ n.toList

theorem notMem_intercalate {sep : String} {c : Char} (hsep : c ∉ sep.toList) {parts : List String}
    (h : ∀ p ∈ parts, c ∉ p.toList) : c ∉ (sep.intercalate parts).toList := by
  induction parts with
  | nil => exact List.not_mem_nil
  | cons p parts ih =>
    have hp := h p List.mem_cons_self
    have hrest := ih fun q hq => h q (List.mem_cons_of_mem _ hq)
    cases parts with
    | nil => rwa [String.intercalate_singleton]
    | cons q parts =>
      rw [String.intercalate_cons_cons, String.toList_append, String.toList_append, List.mem_append,
        List.mem_append]
      exact not_or.mpr ⟨not_or.mpr ⟨hp, hsep⟩, hrest⟩

theorem relOf_named {rel : List String} (h : ∀ n ∈ rel, '\x00' ∉ n.toList) :
    '\x00' ∉ (relOf rel).toList := by
  rw [relOf, String.toList_ofList, List.mem_map]
  rintro ⟨c, hc, heq⟩
  split_ifs at heq with hback
  · cases heq
  · rw [heq] at hc
    exact notMem_intercalate (by decide) h hc

theorem Host.at_of_find {h : Host} {ws : List String} {path : Path String} {s : Spot String}
    {node : FileTree.Node String Bytes} (hf : h.find ws path = .ok (s, node)) :
    h.root.at s.pos = some node := by
  unfold find at hf
  cases hl : h.leads ws (fun _ => true) path with
  | error e =>
    rw [hl] at hf
    cases hf
  | ok s' =>
    rw [hl] at hf
    simp only [Except.bind] at hf
    split at hf
    · rename_i hat
      cases hf
      exact hat
    · cases hf

/-- The paths of a context are without a NUL. -/
theorem contextFiles_named {h : Host} (hnamed : h.Named) {ws : List String} {build : ImageBuild}
    {found : List (String × Opened)} (hfound : contextFiles h ws build = .ok found) :
    ∀ f ∈ found, '\x00' ∉ f.1.toList := by
  intro f hf
  obtain ⟨s, entries, hfind, x, hx, content, -, rfl⟩ := (mem_contextFiles hfound).mp hf
  have hunder := mem_under_at (Host.at_of_find hfind) hx
  exact relOf_named fun n hn => hnamed _ hunder n (List.mem_append_right _ hn)

/-! ## What is hashed -/

/-- What is packed into the context: the paths and contents of its files, by their paths. -/
def contextPairs (h : Host) (ws : List String) (build : ImageBuild) : List (String × Bytes) :=
  match planReads h ws build with
  | .ok (_, files) => files.map fun (rel, o) => (rel, o.content)
  | .error _ => []

/-- A path, and the digest of what is there. -/
def Crates.pairCode (c : Crates) (pair : String × Bytes) : Bytes :=
  (utf8 pair.1 ++ [0]) ++ c.sha256 pair.2

/-- A size that may be asked for. -/
def sizeCode (size : Option Nat) : Bytes := utf8 (toString (size.getD 0)) ++ [0]

def driverCode (driver : SandboxDriver) : Bytes := utf8 driver.debug ++ [0]

/-- The string whose digest the name of an image is. -/
def imageString (c : Crates) (dockerfile : String) (driver : SandboxDriver) (size : Option Nat)
    (pairs : List (String × Bytes)) : Bytes :=
  utf8 "ci-image-v2\x00" ++ ((utf8 dockerfile ++ [0]) ++
    (driverCode driver ++ (sizeCode size ++ pairs.flatMap c.pairCode)))

theorem utf8_append (s t : String) : utf8 (s ++ t) = utf8 s ++ utf8 t := by
  rw [utf8_eq_flatMap, utf8_eq_flatMap, utf8_eq_flatMap, String.toList_append, List.flatMap_append]

theorem contextPairs_of_reads {h : Host} {ws : List String} {build : ImageBuild}
    {d : Opened × String} {files : List (String × Opened)} (hr : planReads h ws build = .ok (d, files)) :
    contextPairs h ws build = files.map fun f => (f.1, f.2.content) := by
  rw [contextPairs, hr]

/-- What is hashed of the files. -/
theorem flatMap_pairCode (c : Crates) (files : List (String × Opened))
    {code : String × Opened → Bytes} (hcode : ∀ rel o, code (rel, o) = c.pairCode (rel, o.content)) :
    files.flatMap code = (files.map fun f => (f.1, f.2.content)).flatMap c.pairCode := by
  rw [List.flatMap_map]
  exact List.flatMap_congr fun f _ => hcode f.1 f.2

theorem planFor_ok {c : Crates} {h : Host} {ws : List String} {vm : VmBlock} {build : ImageBuild}
    {plan : BuildPlan} (hp : planFor c h ws vm build = .ok plan) :
    (∃ d files, planReads h ws build = .ok (d, files)) ∧
    plan.name = "ci-img-" ++ c.digest (imageString c plan.dockerfile vm.driver build.sizeMb
      (contextPairs h ws build)) ∧
    plan.contextTarGz = if contextPairs h ws build = [] then none
      else (c.packContext (contextPairs h ws build)).toOption := by
  unfold planFor at hp
  cases hr : planReads h ws build with
  | error e =>
    rw [hr] at hp
    cases hp
  | ok read =>
    obtain ⟨⟨o, dockerfile⟩, files⟩ := read
    refine ⟨⟨_, _, rfl⟩, ?_⟩
    rw [contextPairs_of_reads hr]
    rw [hr] at hp
    simp only [Except.bind] at hp
    rw [flatMap_pairCode c files fun _ _ => rfl] at hp
    have hstring : ∀ rest, utf8 "ci-image-v2\x00" ++ utf8 dockerfile ++ [0] ++
        utf8 (vm.driver.debug ++ "\x00" ++ s!"{build.sizeMb.getD 0}" ++ "\x00") ++ rest =
        utf8 "ci-image-v2\x00" ++ ((utf8 dockerfile ++ [0]) ++
          (driverCode vm.driver ++ (sizeCode build.sizeMb ++ rest))) := by
      intro rest
      have hnul : utf8 "\x00" = [0] := by decide +kernel
      rw [utf8_append, utf8_append, utf8_append, hnul, driverCode, sizeCode]
      simp only [List.append_assoc]
    rw [hstring] at hp
    by_cases hnil : files = []
    · subst hnil
      cases hp
      exact ⟨rfl, rfl⟩
    · rw [if_neg fun hempty => hnil (List.isEmpty_iff.mp hempty)] at hp
      rw [if_neg fun hmap => hnil (List.map_eq_nil_iff.mp hmap)]
      cases hpack : c.packContext (files.map fun f => (f.1, f.2.content)) with
      | error reason =>
        rw [hpack] at hp
        cases hp
      | ok packed =>
        rw [hpack] at hp
        cases hp
        exact ⟨rfl, rfl⟩

/-! ## What the string tells -/

theorem framedOn_driverCode : FramedOn Set.univ driverCode := by
  refine framedOn_ended (fun d _ => zero_notMem_utf8 ?_) fun d _ d' _ heq => ?_
  · cases d <;> decide
  · have hdebug := utf8_inj.mp heq
    cases d <;> cases d' <;> first | rfl | exact absurd hdebug (by decide)

/-- No size is asked for by the size zero, which no build may ask for. -/
theorem framedOn_sizeCode : FramedOn {size : Option Nat | size ≠ some 0} sizeCode := by
  refine framedOn_ended (fun size _ => zero_notMem_utf8 ?_) fun size hsize size' hsize' heq => ?_
  · intro hmem
    change '\x00' ∈ (size.getD 0).repr.toList at hmem
    rw [Nat.toList_repr] at hmem
    have hdigit := Nat.isDigit_of_mem_toDigits (by omega) (by omega) hmem
    exact absurd hdigit (by decide)
  · have hvalue : size.getD 0 = size'.getD 0 := Nat.repr_injective (utf8_inj.mp heq)
    rcases size with _ | n <;> rcases size' with _ | m
    · rfl
    · exact absurd (congrArg some hvalue.symm) hsize'
    · exact absurd (congrArg some hvalue) hsize
    · exact congrArg some hvalue

theorem framedOn_pairCode {c : Crates} {hashed : Set Bytes} (hc : c.Ideal hashed) :
    FramedOn ({rel : String | '\x00' ∉ rel.toList} ×ˢ hashed) c.pairCode :=
  framedOn_name.pair hc.framedOn

theorem imageString_inj {c : Crates} {hashed : Set Bytes} (hc : c.Ideal hashed)
    {dockerfile₁ dockerfile₂ : String} {driver₁ driver₂ : SandboxDriver} {size₁ size₂ : Option Nat}
    {pairs₁ pairs₂ : List (String × Bytes)} (hd₁ : '\x00' ∉ dockerfile₁.toList)
    (hd₂ : '\x00' ∉ dockerfile₂.toList) (hs₁ : size₁ ≠ some 0) (hs₂ : size₂ ≠ some 0)
    (hp₁ : ∀ p ∈ pairs₁, '\x00' ∉ p.1.toList ∧ p.2 ∈ hashed)
    (hp₂ : ∀ p ∈ pairs₂, '\x00' ∉ p.1.toList ∧ p.2 ∈ hashed)
    (heq : imageString c dockerfile₁ driver₁ size₁ pairs₁ =
      imageString c dockerfile₂ driver₂ size₂ pairs₂) :
    dockerfile₁ = dockerfile₂ ∧ driver₁ = driver₂ ∧ size₁ = size₂ ∧ pairs₁ = pairs₂ := by
  have hfile := List.append_cancel_left heq
  obtain ⟨rfl, hdriver⟩ := framedOn_name _ hd₁ _ hd₂ _ _ hfile
  obtain ⟨rfl, hsize⟩ := framedOn_driverCode _ trivial _ trivial _ _ hdriver
  obtain ⟨rfl, hpairs⟩ := framedOn_sizeCode _ hs₁ _ hs₂ _ _ hsize
  refine ⟨rfl, rfl, rfl, (framedOn_pairCode hc).flatMap_inj ?_ hp₁ hp₂ hpairs⟩
  exact fun p _ => by simp [Crates.pairCode]

/-- All that is hashed for the name of an image: the contents of the context, and the string whose
digest it is. -/
def imageHashed (c : Crates) (h : Host) (ws : List String) (vm : VmBlock) (build : ImageBuild)
    (plan : BuildPlan) : Set Bytes :=
  {x | x ∈ (contextPairs h ws build).map Prod.snd} ∪
    {imageString c plan.dockerfile vm.driver build.sizeMb (contextPairs h ws build)}

theorem contextPairs_named {h : Host} (hnamed : h.Named) {ws : List String} {build : ImageBuild}
    {d : Opened × String} {files : List (String × Opened)} (hr : planReads h ws build = .ok (d, files)) :
    ∀ p ∈ contextPairs h ws build, '\x00' ∉ p.1.toList := by
  rw [contextPairs_of_reads hr, List.forall_mem_map]
  obtain ⟨-, found, hfound, rfl⟩ := planReads_ok.mp hr
  exact fun f hf => contextFiles_named hnamed hfound f ((List.mem_insertionSort _).mp hf)

/-- **The names of two images are equal exactly when the Dockerfiles, the drivers, the sizes and the
files of the contexts are**, and then what is sent is equal. -/
theorem image_name_eq_iff {c : Crates} {hashed : Set Bytes} (hc : c.Ideal hashed) {h₁ h₂ : Host}
    (hn₁ : h₁.Named) (hn₂ : h₂.Named) {ws₁ ws₂ : List String} {vm₁ vm₂ : VmBlock}
    {build₁ build₂ : ImageBuild} {plan₁ plan₂ : BuildPlan}
    (hb₁ : vm₁.build = some build₁) (hb₂ : vm₂.build = some build₂)
    (hv₁ : vm₁.validate = .ok ()) (hv₂ : vm₂.validate = .ok ())
    (hp₁ : planFor c h₁ ws₁ vm₁ build₁ = .ok plan₁) (hp₂ : planFor c h₂ ws₂ vm₂ build₂ = .ok plan₂)
    (hin₁ : imageHashed c h₁ ws₁ vm₁ build₁ plan₁ ⊆ hashed)
    (hin₂ : imageHashed c h₂ ws₂ vm₂ build₂ plan₂ ⊆ hashed)
    (hd₁ : '\x00' ∉ plan₁.dockerfile.toList) (hd₂ : '\x00' ∉ plan₂.dockerfile.toList) :
    (plan₁.name = plan₂.name ↔ plan₁.dockerfile = plan₂.dockerfile ∧ vm₁.driver = vm₂.driver ∧
      build₁.sizeMb = build₂.sizeMb ∧ contextPairs h₁ ws₁ build₁ = contextPairs h₂ ws₂ build₂) ∧
    (plan₁.name = plan₂.name → plan₁ = plan₂) := by
  obtain ⟨⟨d₁, files₁, hr₁⟩, hname₁, htar₁⟩ := planFor_ok hp₁
  obtain ⟨⟨d₂, files₂, hr₂⟩, hname₂, htar₂⟩ := planFor_ok hp₂
  have hiff : plan₁.name = plan₂.name ↔ plan₁.dockerfile = plan₂.dockerfile ∧
      vm₁.driver = vm₂.driver ∧ build₁.sizeMb = build₂.sizeMb ∧
      contextPairs h₁ ws₁ build₁ = contextPairs h₂ ws₂ build₂ := by
    rw [hname₁, hname₂]
    constructor
    · intro heq
      have hdigest := String.append_right_inj _ |>.mp heq
      have hstring := hc.inj (hin₁ (Or.inr rfl)) (hin₂ (Or.inr rfl)) hdigest
      refine imageString_inj hc hd₁ hd₂ ?_ ?_ ?_ ?_ hstring
      · exact (paths_of_validate (validate_build hv₁ hb₁)).2.2
      · exact (paths_of_validate (validate_build hv₂ hb₂)).2.2
      · exact fun p hp => ⟨contextPairs_named hn₁ hr₁ p hp, hin₁ (Or.inl (List.mem_map_of_mem hp))⟩
      · exact fun p hp => ⟨contextPairs_named hn₂ hr₂ p hp, hin₂ (Or.inl (List.mem_map_of_mem hp))⟩
    · rintro ⟨hfile, hdriver, hsize, hpairs⟩
      rw [hfile, hdriver, hsize, hpairs]
  refine ⟨hiff, fun hname => ?_⟩
  obtain ⟨hfile, -, -, hpairs⟩ := hiff.mp hname
  rw [hpairs, ← htar₂] at htar₁
  cases plan₁
  cases plan₂
  simp only at hname hfile htar₁
  rw [hname, hfile, htar₁]

/-! ## Two contexts of one Dockerfile -/

/-- What is in the two files of a context. -/
def scratchOne : Bytes := utf8 "1\n"

def scratchTwo : Bytes := utf8 "2\n"

/-- A workspace with a Dockerfile and two contexts: the second has the contents of the first the other
way round. -/
def scratchHost : Host where
  root := .dir [("srv", .dir [("Dockerfile", .file (utf8 "FROM scratch\n")),
    ("files", .dir [("a", .file scratchOne), ("b", .file scratchTwo)]),
    ("turned", .dir [("a", .file scratchTwo), ("b", .file scratchOne)])])]
  denied := fun _ => false

def scratchBuild (context : String) : ImageBuild := ⟨"Dockerfile", some context, none⟩

def scratchVm (context : String) : VmBlock where
  image := none
  build := some (scratchBuild context)
  reuse := true
  workingDirectory := none
  driver := .firecracker
  sizeClass := none
  diskSizeGb := none
  envVars := []
  setupHooks := []
  cacheKeyFiles := []
  ttlSeconds := none

/-- The digests of the two contents. -/
def scratchDigestOne : Bytes :=
  [67, 85, 164, 107, 25, 211, 72, 220, 47, 87, 192, 70, 248, 239, 99, 212, 83, 142, 187, 147, 96, 0,
    243, 201, 238, 149, 74, 39, 70, 13, 216, 101]

def scratchDigestTwo : Bytes :=
  [83, 194, 52, 229, 232, 71, 43, 106, 197, 28, 26, 225, 202, 179, 254, 6, 250, 208, 83, 190, 184,
    235, 253, 137, 119, 176, 16, 101, 91, 253, 211, 195]

/-- What is hashed for a context whose files `a` and `b` have these digests. -/
def scratchString (a b : Bytes) : Bytes :=
  utf8 "ci-image-v2\x00FROM scratch\n\x00Firecracker\x000\x00a\x00" ++ a ++ utf8 "b\x00" ++ b

/-- The digests of the contents and of what is hashed for the two contexts. -/
def scratchCrates : Crates where
  sha256 content :=
    if content = scratchOne then scratchDigestOne
    else if content = scratchTwo then scratchDigestTwo
    else if content = scratchString scratchDigestOne scratchDigestTwo then
      [11, 193, 150, 135, 23, 129, 108, 238, 101, 84, 78, 197, 190, 190, 228, 208, 210, 71, 61, 104,
        177, 219, 248, 171, 4, 172, 193, 69, 191, 179, 184, 120]
    else [54, 37, 164, 188, 227, 224, 109, 28, 186, 160, 141, 242, 229, 188, 169, 82, 225, 243, 64,
      40, 122, 212, 159, 120, 23, 239, 172, 49, 168, 244, 171, 23]
  vmJson _ := .error "nothing to encode"
  -- the name of an image does not depend on how its files are packed
  packContext files := .ok (files.flatMap fun (rel, content) => utf8 rel ++ [0] ++ content)

/-- The files of the two contexts. -/
def scratchPairs (context : String) : List (String × Bytes) :=
  if context = "files" then [("a", scratchOne), ("b", scratchTwo)]
  else [("a", scratchTwo), ("b", scratchOne)]

/-- What is hashed for the two contexts. -/
def scratchHashed : List Bytes := [scratchOne, scratchTwo] ++ ["files", "turned"].map fun context =>
  imageString scratchCrates "FROM scratch\n" .firecracker none (scratchPairs context)

theorem scratch_ideal : scratchCrates.Ideal {x | x ∈ scratchHashed} where
  length x _ := by
    unfold scratchCrates
    simp only
    split_ifs <;> rfl
  inj := by
    have hall : ∀ x ∈ scratchHashed, ∀ y ∈ scratchHashed,
        scratchCrates.digest x = scratchCrates.digest y → x = y := by decide +kernel
    exact fun x hx y hy => hall x hx y hy

theorem scratch_names : ∃ plan₁ plan₂,
    planFor scratchCrates scratchHost ["srv"] (scratchVm "files") (scratchBuild "files") =
      .ok plan₁ ∧
    planFor scratchCrates scratchHost ["srv"] (scratchVm "turned") (scratchBuild "turned") =
      .ok plan₂ ∧ plan₁.name ≠ plan₂.name := by
  have hpairs : ∀ context ∈ ["files", "turned"],
      contextPairs scratchHost ["srv"] (scratchBuild context) = scratchPairs context := by
    decide +kernel
  have hplan : ∀ context ∈ ["files", "turned"], ∃ plan,
      planFor scratchCrates scratchHost ["srv"] (scratchVm context) (scratchBuild context) =
        .ok plan ∧ plan.dockerfile = "FROM scratch\n" ∧
      imageHashed scratchCrates scratchHost ["srv"] (scratchVm context) (scratchBuild context) plan ⊆
        {x | x ∈ scratchHashed} := by
    intro context hcontext
    have hread : ∀ context ∈ ["files", "turned"], (planFor scratchCrates scratchHost ["srv"]
        (scratchVm context) (scratchBuild context)).toOption.map (·.dockerfile) =
          some "FROM scratch\n" := by decide +kernel
    have hcontents : ∀ context ∈ ["files", "turned"], ∀ p ∈ scratchPairs context,
        p.2 ∈ scratchHashed := by decide +kernel
    obtain ⟨plan, hplan, hfile⟩ := Option.map_eq_some_iff.mp (hread context hcontext)
    refine ⟨plan, Loop.ok_of_toOption hplan, hfile, ?_⟩
    rw [imageHashed, hpairs context hcontext, hfile]
    rintro x (hx | rfl)
    · obtain ⟨p, hp, rfl⟩ := List.mem_map.mp hx
      exact hcontents context hcontext p hp
    · exact List.mem_append_right _ (List.mem_map.mpr ⟨context, hcontext, rfl⟩)
  have hnamed : scratchHost.Named := by
    have hall : ∀ x ∈ scratchHost.root.under, ∀ n ∈ x.1, n.toList.contains '\x00' = false := by
      decide
    intro x hx n hn hmem
    have hcontains := hall x hx n hn
    rw [List.contains_iff_mem.mpr hmem] at hcontains
    cases hcontains
  obtain ⟨plan₁, hp₁, hfile₁, hin₁⟩ := hplan "files" (by decide)
  obtain ⟨plan₂, hp₂, hfile₂, hin₂⟩ := hplan "turned" (by decide)
  refine ⟨plan₁, plan₂, hp₁, hp₂, fun hname => ?_⟩
  have hiff := (image_name_eq_iff scratch_ideal hnamed hnamed rfl rfl (by decide)
    (by decide) hp₁ hp₂ hin₁ hin₂ (by rw [hfile₁]; decide) (by rw [hfile₂]; decide)).1
  have hturned := (hiff.mp hname).2.2.2
  rw [hpairs _ (by decide), hpairs _ (by decide)] at hturned
  exact absurd hturned (by decide +kernel)

end HeyoCi
