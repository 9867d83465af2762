import HeyoCi.Plan.Order
import HeyoCi.Steps.Layers
import HeyoCi.Workflow.Grammar

/-!
# Placement and the matrix

`uses:` is read before the values of a cell are there, and they are put into its parts one by one.

* `Target.placeParts`, `Target.ofParts`: the parts of a path, and the target they make;
  `parse_ofParts_iff`;
* `Target.components`, `matrixExprs`: the texts of a target, and the expressions in a text that name
  the matrix;
* `PlacedAsWritten`: a cell's target is what its `uses:` says with the values in it;
* `PartsCommute`: the values come into the parts as they come into the whole;
* **`placed_iff`**: the cells whose target is as written are those whose `uses:` is the word for the
  own host, or has parts that commute.
-/

namespace HeyoCi

open HeyoCi.Expr

namespace Target

open HeyoCi.Text

/-- The parts of a path, without a `*` for the node. -/
def placeParts (raw : String) : List String := match usesParts raw with
  | [network, "*"] => [network]
  | parts => parts

/-- The target of a network, and perhaps a node and a VM. -/
def ofParts (network : String) (others : List String) : Target :=
  ⟨some network, others[0]?, others[1]?, false⟩

/-- The texts of a target. -/
def components (t : Target) : List String := t.network.toList ++ t.node.toList ++ t.vm.toList

theorem placeParts_cons {raw network : String} {rest : List String}
    (h : usesParts raw = network :: rest) :
    placeParts raw = network :: if rest = ["*"] then [] else rest := by
  unfold placeParts
  rw [h]
  split
  · rename_i heq
    cases heq
    rw [if_pos rfl]
  · rename_i hne
    rw [if_neg]
    rintro rfl
    exact hne network rfl

/-- What follows a network, by the parts that name something. -/
theorem rest_iff {rest : List String} {node vm : Option String} : Rest rest node vm ↔
    (if rest = ["*"] then [] else rest).length ≤ 2 ∧
      (∀ p ∈ if rest = ["*"] then [] else rest, Name p) ∧
      node = (if rest = ["*"] then [] else rest)[0]? ∧
      vm = (if rest = ["*"] then [] else rest)[1]? := by
  constructor
  · intro h
    cases h with
    | nothing => simp
    | star => simp
    | node hn => simp [hn.2, hn]
    | vm hn hv => simp [hn, hv]
  · by_cases hstar : rest = ["*"]
    · subst hstar
      rw [if_pos rfl]
      rintro ⟨-, -, rfl, rfl⟩
      exact .star
    · rw [if_neg hstar]
      rintro ⟨hlen, hnames, rfl, rfl⟩
      match rest with
      | [] => exact .nothing
      | [n] => exact .node (hnames n (by simp))
      | [n, v] => exact .vm (hnames n (by simp)) (hnames v (by simp))
      | _ :: _ :: _ :: _ => simp at hlen

/-- A path is read by its parts. -/
theorem parse_ofParts_iff {raw : String} {t : Target} (hlocal : t.isLocal = false) :
    parse raw = .ok t ↔ eqIgnoreAsciiCase (trim raw) defaultNode = false ∧
      ∃ network others, placeParts raw = network :: others ∧ network ≠ "" ∧ others.length ≤ 2 ∧
        (∀ p ∈ others, Name p) ∧ t = ofParts network others := by
  rw [parse_ok_iff]
  by_cases hdefault : eqIgnoreAsciiCase (trim raw) defaultNode = true
  · rw [if_pos hdefault]
    refine iff_of_false ?_ fun h => ?_
    · rintro rfl
      cases hlocal
    · rw [h.1] at hdefault
      cases hdefault
  · rw [if_neg hdefault, Bool.not_eq_true] at *
    simp only [hdefault, true_and]
    constructor
    · rintro ⟨network, rest, node, vm, hparts, hne, hrest, rfl⟩
      obtain ⟨hlen, hnames, rfl, rfl⟩ := rest_iff.mp hrest
      exact ⟨network, _, placeParts_cons hparts, hne, hlen, hnames, rfl⟩
    · rintro ⟨network, others, hplace, hne, hlen, hnames, rfl⟩
      cases hparts : usesParts raw with
      | nil =>
        rw [placeParts, hparts] at hplace
        cases hplace
      | cons network' rest =>
        rw [placeParts_cons hparts] at hplace
        obtain ⟨rfl, rfl⟩ := List.cons_eq_cons.mp hplace
        exact ⟨network', rest, _, _, rfl, hne, rest_iff.mpr ⟨hlen, hnames, rfl, rfl⟩, rfl⟩

end Target

section Placement

variable {Y F : Type} (fl : Floats F)

/-- An expression names the matrix. -/
def namesMatrix : Piece → Bool
  | .char _ => false
  | .expr body => match tokenize fl body with
    | .ok ts => ts.any fun
      | .ident name => name = "matrix"
      | _ => false
    | .error _ => false

/-- The expressions in a text that name the matrix. -/
def matrixExprs (s : String) : List Piece := (pieces s.toList).filter (namesMatrix fl)

/-- The values of a cell, put into a text. -/
def cellText (cell : PlannedJob) (job : Job Y) (s : String) : String :=
  substitute fl (cell.asWritten job).baseContext s

/-- **The target of a cell is what `uses:` says with the values of the cell in it**, and no expression
of the matrix is left. -/
def PlacedAsWritten (cell : PlannedJob) (job : Job Y) (uses : String) : Prop :=
  Target.parse (cellText fl cell job uses) = .ok cell.target ∧
    ∀ s ∈ cell.target.components, matrixExprs fl s = []

/-- The parts of a path with the values in its network and its node, and its VM as it is written. -/
def partsWith (sub : String → String) : List String → List String
  | [] => []
  | [network] => [sub network]
  | network :: node :: vm => sub network :: sub node :: vm

/-- The values come into the whole of a path as they come into its network and its node: its parts are
the same, they name something, and no value brings an expression of the matrix. -/
structure PartsCommute (sub : String → String) (uses : String) : Prop where
  notDefault : Text.eqIgnoreAsciiCase (Text.trim (sub uses)) Target.defaultNode = false
  parts : Target.placeParts (sub uses) = partsWith sub (Target.placeParts uses)
  named : ∀ p ∈ partsWith sub (Target.placeParts uses), p ≠ ""
  notStar : ∀ p ∈ (partsWith sub (Target.placeParts uses)).tail, p ≠ "*"
  settled : ∀ p ∈ partsWith sub (Target.placeParts uses), matrixExprs fl p = []

variable {fl}

/-- What the code puts the values into. -/
def Target.substituted (sub : String → String) (t : Target) : Target :=
  { t with network := t.network.map sub, node := t.node.map sub }

theorem target_of_build {y : YamlCrate Y} {wf : Workflow Y} {plan : BuiltPlan}
    (hids : (wf.jobs.map Prod.fst).Nodup) (h : Plan.build y fl wf = .ok plan) {cell : PlannedJob}
    (hcell : cell ∈ plan.cells) {job : Job Y} (hjob : (cell.baseId, job) ∈ wf.jobs) :
    ∃ t, job.target = .ok t ∧ cell.target = t.substituted (cellText fl cell job) := by
  obtain ⟨drafts, hdrafts, hperm, -⟩ := build_ok h
  have hmem : cell ∈ cellsOf fl drafts.flatten := hperm.mem_iff.mp hcell
  obtain ⟨⟨d, key⟩, hzip, rfl⟩ := List.mem_map.mp hmem
  obtain ⟨hentry, htarget⟩ := draft_written hdrafts (List.of_mem_zip hzip).1
  have hsame : (d.id, job) = (d.id, d.job) := List.inj_on_of_nodup_map hids hjob hentry rfl
  obtain rfl : job = d.job := (Prod.mk.inj hsame).2
  exact ⟨d.target, htarget, rfl⟩

/-- A text that is the word for the own host has no expression in it. -/
theorem substitute_default {ctx : Json.Obj} {u : String}
    (h : Text.eqIgnoreAsciiCase (Text.trim u) Target.defaultNode = true) : substitute fl ctx u = u := by
  have hdollar : '$' ∉ u.toList := by
    intro hmem
    have htrim : ('$' : Char).toLower ∈ (Text.trim u).toList.map Char.toLower :=
      List.mem_map_of_mem (Text.mem_trim_of_mem hmem (by decide))
    rw [of_decide_eq_true h] at htrim
    revert htrim
    decide
  have hopen : ¬ opening <:+: u.toList := fun hin => hdollar (hin.subset (by decide))
  rw [substitute, substituteChars_of_live (live_of_closed hopen), String.ofList_toList]

theorem substituted_ofParts {sub : String → String} {network : String} {others : List String}
    (hlen : others.length ≤ 2) : ∃ others', partsWith sub (network :: others) = sub network :: others' ∧
      others'.length ≤ 2 ∧ (Target.ofParts network others).substituted sub =
        Target.ofParts (sub network) others' := by
  match others with
  | [] => exact ⟨[], rfl, by simp, rfl⟩
  | [n] => exact ⟨[sub n], rfl, by simp, rfl⟩
  | [n, v] => exact ⟨[sub n, v], rfl, by simp, rfl⟩
  | _ :: _ :: _ :: _ => simp at hlen

theorem ofParts_inj {network network' : String} {others others' : List String}
    (hlen : others.length ≤ 2) (hlen' : others'.length ≤ 2)
    (h : Target.ofParts network others = Target.ofParts network' others') :
    network = network' ∧ others = others' := by
  injection h with hn h₀ h₁
  refine ⟨Option.some.inj hn, List.ext_getElem? fun i => ?_⟩
  match i with
  | 0 => exact h₀
  | 1 => exact h₁
  | i + 2 => rw [List.getElem?_eq_none (by omega), List.getElem?_eq_none (by omega)]

theorem components_ofParts {network : String} {others : List String} (hlen : others.length ≤ 2) :
    (Target.ofParts network others).components = network :: others := by
  match others with
  | [] => rfl
  | [n] => rfl
  | [n, v] => rfl
  | _ :: _ :: _ :: _ => simp at hlen

/-- **The values commute with reading a path if and only if they do with its parts.** -/
theorem parse_substituted_iff {sub : String → String} {u : String} {t : Target}
    (ht : Target.parse u = .ok t) (hlocal : t.isLocal = false) :
    (Target.parse (sub u) = .ok (t.substituted sub) ∧
      ∀ s ∈ (t.substituted sub).components, matrixExprs fl s = []) ↔ PartsCommute fl sub u := by
  obtain ⟨-, network, others, hplace, -, hlen, -, rfl⟩ := (Target.parse_ofParts_iff hlocal).mp ht
  obtain ⟨others', hwith, hlen', heq⟩ := @substituted_ofParts sub network others hlen
  rw [← hplace] at hwith
  rw [heq, components_ofParts hlen', Target.parse_ofParts_iff rfl]
  constructor
  · rintro ⟨⟨hdefault, network', others'', hparts, hne, hlen'', hnames, hofParts⟩, hsettled⟩
    obtain ⟨rfl, rfl⟩ := ofParts_inj hlen' hlen'' hofParts
    refine ⟨hdefault, by rw [hwith, hparts], ?_, ?_, ?_⟩
    · rw [hwith]
      exact List.forall_mem_cons.mpr ⟨hne, fun p hp => (hnames p hp).1⟩
    · rw [hwith]
      exact fun p hp => (hnames p hp).2
    · rw [hwith]
      exact hsettled
  · rintro ⟨hdefault, hparts, hnamed, hstar, hsettled⟩
    rw [hwith] at hparts hnamed hstar hsettled
    obtain ⟨hne, hothers⟩ := List.forall_mem_cons.mp hnamed
    exact ⟨⟨hdefault, _, _, hparts, hne, hlen', fun p hp => ⟨hothers p hp, hstar p hp⟩, rfl⟩, hsettled⟩

/-- **A cell's target is what its `uses:` says with the values in it if and only if** that is the word
for the own host, or a path whose parts commute with the values. -/
theorem placed_iff (y : YamlCrate Y) (fl : Floats F) (path yaml : String) (wf : Workflow Y)
    (plan : BuiltPlan) (hparse : Workflow.parse y path yaml = .ok wf)
    (hbuild : Plan.build y fl wf = .ok plan) (cell : PlannedJob) (hcell : cell ∈ plan.cells)
    (job : Job Y) (hjob : (cell.baseId, job) ∈ wf.jobs) (uses : String)
    (huses : job.uses = some uses) : PlacedAsWritten fl cell job uses ↔
      Text.eqIgnoreAsciiCase (Text.trim uses) Target.defaultNode = true ∨
        PartsCommute fl (cellText fl cell job) uses := by
  obtain ⟨-, -, -, -, -, -, -, -, hvalid⟩ := Workflow.parse_ok hparse
  obtain ⟨t, ht, htarget⟩ := target_of_build (Workflow.validate_ok hvalid).1 hbuild hcell hjob
  replace ht : Target.parse uses = .ok t := by
    rw [Job.target, huses] at ht
    exact ht
  rw [PlacedAsWritten, htarget]
  by_cases hdefault : Text.eqIgnoreAsciiCase (Text.trim uses) Target.defaultNode = true
  · refine iff_of_true ?_ (Or.inl hdefault)
    have hlocal : t = ⟨none, none, none, true⟩ := by
      rw [Target.parse_ok_iff, if_pos hdefault] at ht
      exact ht
    rw [cellText, substitute_default hdefault, ht, hlocal]
    exact ⟨rfl, by simp [Target.components, Target.substituted]⟩
  · rw [or_iff_right hdefault]
    refine parse_substituted_iff ht ?_
    rw [Target.parse_ok_iff, if_neg hdefault] at ht
    obtain ⟨_, _, _, _, -, -, -, rfl⟩ := ht
    rfl

/-- **A value stands for itself** where `uses:` is one expression: it names a network, and says nothing
else. -/
theorem partsCommute_whole_iff {sub : String → String} {uses : String}
    (hwhole : Target.usesParts uses = [uses]) : PartsCommute fl sub uses ↔
      Text.eqIgnoreAsciiCase (sub uses) Target.defaultNode = false ∧ '/' ∉ (sub uses).toList ∧
        Text.Trimmed (sub uses).toList ∧ sub uses ≠ "" ∧ matrixExprs fl (sub uses) = [] := by
  have hplace : Target.placeParts uses = [uses] := by
    rw [Target.placeParts_cons hwhole, if_neg (by simp)]
  have htrim : Text.Trimmed (sub uses).toList → Text.trim (sub uses) = sub uses := fun h => by
    have htrim := Text.trim_of_trimmed h
    rwa [String.ofList_toList] at htrim
  constructor
  · rintro ⟨hdefault, hparts, hnamed, -, hsettled⟩
    rw [hplace] at hparts hnamed hsettled
    have hmem : sub uses ∈ Target.usesParts (sub uses) := by
      cases hraw : Target.usesParts (sub uses) with
      | nil =>
        rw [Target.placeParts, hraw] at hparts
        cases hparts
      | cons network rest =>
        rw [Target.placeParts_cons hraw] at hparts
        rw [(List.cons_eq_cons.mp hparts).1]
        exact List.mem_cons_self
    obtain ⟨hslash, htrimmed⟩ := Target.mem_usesParts hmem
    rw [htrim htrimmed] at hdefault
    exact ⟨hdefault, hslash, htrimmed, hnamed _ (by simp [partsWith]), hsettled _ (by simp [partsWith])⟩
  · rintro ⟨hdefault, hslash, htrimmed, hne, hsettled⟩
    have hraw : Target.usesParts (sub uses) = [sub uses] := by
      rw [Target.usesParts, htrim htrimmed, List.splitOn_eq_singleton hslash, List.map_singleton,
        String.ofList_toList, htrim htrimmed]
    refine ⟨?_, ?_, ?_, ?_, ?_⟩
    · rw [htrim htrimmed]
      exact hdefault
    · rw [hplace, Target.placeParts_cons hraw, if_neg (by simp)]
      rfl
    · simpa [hplace, partsWith] using hne
    · simp [hplace, partsWith]
    · simpa [hplace, partsWith] using hsettled

end Placement

/-! ## Two jobs -/

section Placed

/-- A job with one value in its matrix. -/
private def pinned (uses axis value : String) : List (String × Job Json) :=
  [("test", { Job.ofCommand "cargo test" with
    uses := some uses
    strategy := some ⟨some (.obj [(axis, .arr [.str value])]), none, true⟩ })]

private def pinnedCell (jobs : List (String × Job Json)) :
    Option (Workflow Json × BuiltPlan × PlannedJob × Job Json) :=
  (Workflow.parse (.ofJobs jobs) "build.yml" "").toOption.bind fun wf =>
    (Plan.build (.ofJobs jobs) Floats.absent wf).toOption.bind fun plan =>
      plan.cells.head?.bind fun cell => (wf.jobs.lookup cell.baseId).map fun job =>
        (wf, plan, cell, job)

private theorem pinnedCell_ok {jobs : List (String × Job Json)} {wf : Workflow Json}
    {plan : BuiltPlan} {cell : PlannedJob} {job : Job Json}
    (h : pinnedCell jobs = some (wf, plan, cell, job)) :
    Workflow.parse (.ofJobs jobs) "build.yml" "" = .ok wf ∧
      Plan.build (.ofJobs jobs) Floats.absent wf = .ok plan ∧ cell ∈ plan.cells ∧
      (cell.baseId, job) ∈ wf.jobs := by
  obtain ⟨wf', hwf, h⟩ := Option.bind_eq_some_iff.mp h
  obtain ⟨plan', hplan, h⟩ := Option.bind_eq_some_iff.mp h
  obtain ⟨cell', hcell, h⟩ := Option.bind_eq_some_iff.mp h
  obtain ⟨job', hjob, h⟩ := Option.map_eq_some_iff.mp h
  cases h
  obtain ⟨l₁, l₂, hsplit, -⟩ := List.lookup_eq_some_iff.mp hjob
  exact ⟨Loop.ok_of_toOption hwf, Loop.ok_of_toOption hplan, List.mem_of_head? hcell,
    by rw [hsplit]; simp⟩

/-- The host of a network may come from the matrix. -/
theorem node_placed : ∃ (wf : Workflow Json) (plan : BuiltPlan) (cell : PlannedJob) (job : Job Json),
    Plan.build (.ofJobs (pinned "prod/$\x7b\x7b matrix.host \x7d\x7d" "host" "web-1"))
      Floats.absent wf = .ok plan ∧ cell ∈ plan.cells ∧
    cell.target = ⟨some "prod", some "web-1", none, false⟩ ∧
    PlacedAsWritten Floats.absent cell job "prod/$\x7b\x7b matrix.host \x7d\x7d" := by
  have hcell : (pinnedCell (pinned "prod/$\x7b\x7b matrix.host \x7d\x7d" "host" "web-1")).map
      (fun (_, _, cell, job) => (cell.target, job.uses,
        ["prod/$\x7b\x7b matrix.host \x7d\x7d", "prod", "$\x7b\x7b matrix.host \x7d\x7d"].map
          (cellText Floats.absent cell job))) =
      some (⟨some "prod", some "web-1", none, false⟩, some "prod/$\x7b\x7b matrix.host \x7d\x7d",
        ["prod/web-1", "prod", "web-1"]) := by decide +kernel
  obtain ⟨⟨wf, plan, cell, job⟩, hmem, heq⟩ := Option.map_eq_some_iff.mp hcell
  obtain ⟨htarget, heq⟩ := Prod.mk.inj heq
  obtain ⟨huses, htexts⟩ := Prod.mk.inj heq
  obtain ⟨hwhole, htexts⟩ := List.cons_eq_cons.mp htexts
  obtain ⟨hnetwork, htexts⟩ := List.cons_eq_cons.mp htexts
  obtain ⟨hnode, -⟩ := List.cons_eq_cons.mp htexts
  obtain ⟨hparse, hbuild, hcell, hjob⟩ := pinnedCell_ok hmem
  have hwith : partsWith (cellText Floats.absent cell job)
      (Target.placeParts "prod/$\x7b\x7b matrix.host \x7d\x7d") = ["prod", "web-1"] := by
    have hparts : Target.placeParts "prod/$\x7b\x7b matrix.host \x7d\x7d" =
        ["prod", "$\x7b\x7b matrix.host \x7d\x7d"] := by decide
    rw [hparts, partsWith, hnetwork, hnode]
  refine ⟨wf, plan, cell, job, hbuild, hcell, htarget,
    (placed_iff _ _ _ _ wf plan hparse hbuild cell hcell job hjob _ huses).mpr (Or.inr ?_)⟩
  refine ⟨?_, ?_, ?_, ?_, ?_⟩
  · rw [hwhole]
    decide
  · rw [hwith, hwhole]
    decide
  · rw [hwith]
    decide
  · rw [hwith]
    decide
  · rw [hwith]
    decide

/-- A VM that comes from the matrix is left as it is written. -/
theorem vm_not_placed : ¬ ∀ (y : YamlCrate Json) (path yaml : String) (wf : Workflow Json)
    (plan : BuiltPlan) (cell : PlannedJob) (job : Job Json) (uses : String),
    Workflow.parse y path yaml = .ok wf → Plan.build y Floats.absent wf = .ok plan →
    cell ∈ plan.cells → (cell.baseId, job) ∈ wf.jobs → job.uses = some uses →
    PlacedAsWritten Floats.absent cell job uses := by
  intro hall
  have hcell : (pinnedCell (pinned "prod/web-1/$\x7b\x7b matrix.vm \x7d\x7d" "vm" "warm")).map
      (fun (_, _, cell, job) => (cell.target.vm, job.uses)) =
      some (some "$\x7b\x7b matrix.vm \x7d\x7d",
        some "prod/web-1/$\x7b\x7b matrix.vm \x7d\x7d") := by decide
  obtain ⟨⟨wf, plan, cell, job⟩, hmem, heq⟩ := Option.map_eq_some_iff.mp hcell
  obtain ⟨hvm, huses⟩ := Prod.mk.inj heq
  obtain ⟨hparse, hbuild, hcell, hjob⟩ := pinnedCell_ok hmem
  obtain ⟨-, hsettled⟩ := hall _ _ _ wf plan cell job _ hparse hbuild hcell hjob huses
  have hleft := hsettled "$\x7b\x7b matrix.vm \x7d\x7d" (by simp [Target.components, hvm])
  revert hleft
  decide +kernel

end Placed

end HeyoCi
