import HeyoCi.Plan.Stored
import HeyoCi.Steps.StepEnv

/-!
# The three levels of `env:`

A workflow, a job and a step may set the same key. The job's values travel in its stored plan, with
the step's, and those of the workflow in the plan of the run, which is not stored. A job's value is
substituted in the plan already, where most scopes are not there yet.

* `Written`: a job of a document, and the top-level `env:` over it;
* `cell_written`: the cells of a plan are cells of its jobs;
* `layeredEnv`: what the three levels come to; `stepEnv_eq`: what a step gets;
* `jobMisses`, `Reaches`: nothing of the job's or the workflow's value is missed at a key;
* **`stepEnv_layered_iff`**: the steps of an accepted file get what the levels come to at these keys,
  and at no others where the plan misses no more than one expression;
* `workflow_env_lost`: a key of the workflow alone.
-/

namespace HeyoCi

open HeyoCi.Expr

section Layers

variable {Y F : Type} (y : YamlCrate Y) (fl : Floats F)

/-- A document has a job of this id, under this top-level `env:`. -/
def Written (yaml : String) (env : List (String × String)) (id : String) (job : Job Y) : Prop :=
  ∃ header entries entry, y.header yaml = .ok header ∧ header.env = env ∧
    y.asMapping header.jobs = some entries ∧ entry ∈ entries ∧ y.asStr entry.1 = some id ∧
    y.job entry.2 = .ok job

/-- A cell whose `env:` is that of its job as it is written. -/
def PlannedJob.asWritten (cell : PlannedJob) (job : Job Y) : JobPlan :=
  { cell.toJobPlan with env := job.env }

/-- **What the three levels come to**: the step's value of a key, else the job's, else the
workflow's, each substituted when the step runs, else that of the code. -/
def layeredEnv (workflow : List (String × String)) (cell : JobPlan) (step : StepBlock)
    (ctx : Json.Obj) (k : String) : Option String :=
  let sub := substitute fl ctx
  ((valueOf step.env k).map sub).or <| ((valueOf cell.env k).map sub).or <|
    ((valueOf workflow k).map sub).or <| valueOf (configEnv cell) k

/-- What the substitution in the plan gets wrong of the value that the job gives a key, where the step
does not set it. -/
def jobMisses (cell : JobPlan) (step : StepBlock) (ctx : Json.Obj) (k : String) : List Piece :=
  match valueOf step.env k, valueOf cell.env k with
  | none, some t => misses fl cell.baseContext ctx t.toList
  | _, _ => []

/-- Nothing of the job's value is missed, and the workflow does not set the key, or another level does
too, or the value is the one that the code gives the key. -/
def Reaches (workflow : List (String × String)) (cell : JobPlan) (step : StepBlock)
    (ctx : Json.Obj) (k : String) : Prop :=
  jobMisses fl cell step ctx k = [] ∧
    (valueOf workflow k = none ∨ (valueOf step.env k).isSome ∨ (valueOf cell.env k).isSome ∨
      (valueOf workflow k).map (substitute fl ctx) = valueOf (configEnv cell) k)

variable {y fl}

/-- What a step gets: its own value of a key, else that of its cell, else that of the code. -/
theorem stepEnv_eq (plan : JobPlan) (step : StepBlock) (ctx : Json.Obj) (k : String) :
    stepEnv fl plan step ctx k = ((valueOf step.env k).map (substitute fl ctx)).or
      (((valueOf plan.env k).map (substitute fl ctx)).or (valueOf (configEnv plan) k)) := by
  rw [stepEnv, insertAll_apply, valueOf_map, insertAll_apply, valueOf_map]
  rfl

theorem written_of_parse {path yaml : String} {wf : Workflow Y}
    (h : Workflow.parse y path yaml = .ok wf) {id : String} {job : Job Y}
    (hjob : (id, job) ∈ wf.jobs) : Written y yaml wf.env id job := by
  obtain ⟨header, entries, hheader, hentries, hread, -, -, henv, -⟩ := Workflow.parse_ok h
  have himage : (.ok (id, job) : Except WorkflowError _) ∈
      entries.map (Workflow.readJob y path) := by
    rw [hread]
    exact List.mem_map_of_mem hjob
  obtain ⟨entry, hentry, hof⟩ := List.mem_map.mp himage
  unfold Workflow.readJob at hof
  split at hof
  · cases hof
  · rename_i id' hid
    split at hof
    · cases hof
    · rename_i job' hj
      cases hof
      exact ⟨header, entries, entry, hheader, henv.symm, hentries, hentry, hid, hj⟩

/-- **A cell has the steps of its job as they are written, and the `env:` of its job substituted.** -/
theorem cell_written {wf : Workflow Y} {plan : BuiltPlan} (h : Plan.build y fl wf = .ok plan)
    {cell : PlannedJob} (hcell : cell ∈ plan.cells) : ∃ job, (cell.baseId, job) ∈ wf.jobs ∧
      cell.blocks = job.steps ∧
      cell.env = job.env.map fun (k, v) => (k, substitute fl (cell.asWritten job).baseContext v) := by
  obtain ⟨drafts, hdrafts, hperm, -⟩ := build_ok h
  have hmem : cell ∈ cellsOf fl drafts.flatten := hperm.mem_iff.mp hcell
  obtain ⟨⟨d, key⟩, hzip, rfl⟩ := List.mem_map.mp hmem
  have hd : d ∈ drafts.flatten := (List.of_mem_zip hzip).1
  exact ⟨d.job, (draft_of_mem hdrafts hd).1, rfl, rfl⟩

variable (fl) in
/-- **One key**, of a cell whose `env:` is substituted in the plan. -/
theorem layered_iff (workflow : List (String × String)) (cell : JobPlan) (step : StepBlock)
    (ctx : Json.Obj) (k : String) (hone : (jobMisses fl cell step ctx k).length ≤ 1) :
    ((valueOf step.env k).map (substitute fl ctx)).or
        (((valueOf cell.env k).map fun v => substitute fl ctx (substitute fl cell.baseContext v)).or
          (valueOf (configEnv cell) k)) = layeredEnv fl workflow cell step ctx k ↔
      Reaches fl workflow cell step ctx k := by
  unfold layeredEnv Reaches
  unfold jobMisses at hone ⊢
  rcases hstep : valueOf step.env k with _ | s
  · rcases hjob : valueOf cell.env k with _ | t
    · rcases hwf : valueOf workflow k with _ | w
      · simp
      · simp [eq_comm]
    · rw [hstep, hjob] at hone
      have htwice : substitute fl ctx (substitute fl cell.baseContext t) = substitute fl ctx t ↔
          misses fl cell.baseContext ctx t.toList = [] := by
        rw [substitute_substitute]
        constructor
        · intro h
          by_contra hne
          have hlen := List.length_pos_iff.mpr hne
          exact substitute_twice_ne (Nat.le_antisymm hone hlen) h
        · exact substitute_twice
      simp [htwice]
  · simp

/-- **A step gets what the three levels come to at the keys where no value of the workflow is missed
and nothing of the job's**, from the plan that is stored; and at no others, where the plan does not get
more than one expression of the job's value wrong. -/
theorem stepEnv_layered_iff (y : YamlCrate Y) (fl : Floats F) (path yaml : String) (wf : Workflow Y)
    (plan : BuiltPlan) (hparse : Workflow.parse y path yaml = .ok wf)
    (hbuild : Plan.build y fl wf = .ok plan) :
    ∀ cell ∈ plan.cells, ∃ job read, Written y yaml wf.env cell.baseId job ∧
      Stored.plannedJob.decode (Stored.plannedJob.encode cell) = some read ∧
      read.blocks = job.steps ∧ ∀ step ∈ read.blocks, ∀ ctx k,
        (Reaches fl wf.env (read.asWritten job) step.toStepBlock ctx k →
          stepEnv fl read.toJobPlan step.toStepBlock ctx k =
            layeredEnv fl wf.env (read.asWritten job) step.toStepBlock ctx k) ∧
        ((jobMisses fl (read.asWritten job) step.toStepBlock ctx k).length ≤ 1 →
          (stepEnv fl read.toJobPlan step.toStepBlock ctx k =
              layeredEnv fl wf.env (read.asWritten job) step.toStepBlock ctx k ↔
            Reaches fl wf.env (read.asWritten job) step.toStepBlock ctx k)) := by
  intro cell hcell
  obtain ⟨job, hjob, hblocks, henv⟩ := cell_written hbuild hcell
  refine ⟨job, cell, written_of_parse hparse hjob, Stored.plannedJob.decode_encode cell, hblocks,
    ?_⟩
  intro step _ ctx k
  have hiff := layered_iff fl wf.env (cell.asWritten job) step.toStepBlock ctx k
  rw [stepEnv_eq, henv, valueOf_map, Option.map_map]
  constructor
  · intro h
    exact (hiff (by rw [h.1]; exact Nat.zero_le 1)).mpr h
  · exact hiff

end Layers

section Levels

/-- A document with no more than texts and mappings. -/
private inductive Note where
  | text (s : String)
  | map (entries : List (Note × Note))

private def levelsJob : Job Note where
  name := none
  uses := none
  vm := ⟨⟨none, none, true, none⟩, .firecracker, none, none, [], [], [], none⟩
  needs := []
  condition := none
  strategy := none
  env := [("LTO", "thin")]
  outputs := []
  continueOnError := false
  timeoutMinutes := none
  fallback := .none
  steps := [⟨⟨⟨none, none, none, none, some "cargo build", false⟩, []⟩, [], none, none, none⟩]

/-- A crate that was given a document with `CARGO_TERM_COLOR: never` and `LTO: off` at its top, and
one job, which has `LTO: thin`. -/
private def levelsCrate : YamlCrate Note where
  header _ := .ok ⟨none, none, [("CARGO_TERM_COLOR", "never"), ("LTO", "off")],
    .map [(.text "build", .map [])]⟩
  job _ := .ok levelsJob
  filter _ := .ok .all
  asMapping
    | .map entries => some entries
    | .text _ => none
  asSequence _ := none
  asStr
    | .text s => some s
    | .map _ => none
  isNull _ := false
  debug _ := ""
  toJson
    | .text s => .str s
    | .map _ => .null

/-- A file and its plan with a first cell that has a first step. -/
private def firstStep {Y : Type} (y : YamlCrate Y) (yaml : String) :
    Option (Workflow Y × BuiltPlan × PlannedJob × StepFile) := do
  let wf ← (Workflow.parse y "build.yml" yaml).toOption
  let plan ← (Plan.build y Floats.absent wf).toOption
  let cell ← plan.cells.head?
  let step ← cell.blocks.head?
  some (wf, plan, cell, step)

private theorem firstStep_ok {Y : Type} {y : YamlCrate Y} {yaml : String} {wf : Workflow Y}
    {plan : BuiltPlan} {cell : PlannedJob} {step : StepFile}
    (h : firstStep y yaml = some (wf, plan, cell, step)) :
    Workflow.parse y "build.yml" yaml = .ok wf ∧ Plan.build y Floats.absent wf = .ok plan ∧
      cell ∈ plan.cells ∧ step ∈ cell.blocks := by
  obtain ⟨wf', hwf, h⟩ := Option.bind_eq_some_iff.mp h
  obtain ⟨plan', hplan, h⟩ := Option.bind_eq_some_iff.mp h
  obtain ⟨cell', hcell, h⟩ := Option.bind_eq_some_iff.mp h
  obtain ⟨step', hstep, h⟩ := Option.bind_eq_some_iff.mp h
  cases h
  exact ⟨Loop.ok_of_toOption hwf, Loop.ok_of_toOption hplan, List.mem_of_head? hcell,
    List.mem_of_head? hstep⟩

/-- A key of the job and the workflow is the job's. -/
theorem job_level_reaches : ∃ wf plan cell,
    wf.env = [("CARGO_TERM_COLOR", "never"), ("LTO", "off")] ∧
    Workflow.parse levelsCrate "build.yml" "" = .ok wf ∧
    Plan.build levelsCrate Floats.absent wf = .ok plan ∧ cell ∈ plan.cells ∧
    ∃ job read, Written levelsCrate "" wf.env cell.baseId job ∧
      Stored.plannedJob.decode (Stored.plannedJob.encode cell) = some read ∧
      ∀ step ∈ read.blocks, ∀ ctx, stepEnv Floats.absent read.toJobPlan step.toStepBlock ctx "LTO" =
        layeredEnv Floats.absent wf.env (read.asWritten job) step.toStepBlock ctx "LTO" := by
  have hfirst : (firstStep levelsCrate "").map (fun (wf, _) => wf.env) =
      some [("CARGO_TERM_COLOR", "never"), ("LTO", "off")] := by decide
  obtain ⟨⟨wf, plan, cell, first⟩, hmem, hwf⟩ := Option.map_eq_some_iff.mp hfirst
  obtain ⟨hparse, hbuild, hcell, -⟩ := firstStep_ok hmem
  obtain ⟨job, read, hwritten, hread, -, hiff⟩ := stepEnv_layered_iff levelsCrate Floats.absent
    "build.yml" "" wf plan hparse hbuild cell hcell
  refine ⟨wf, plan, cell, hwf, hparse, hbuild, hcell, job, read, hwritten, hread, ?_⟩
  intro step hstep ctx
  apply (hiff step hstep ctx "LTO").1
  obtain ⟨_, _, _, -, -, -, -, -, hjob⟩ := hwritten
  cases hjob
  have hset : valueOf levelsJob.env "LTO" = some "thin" := by decide
  change valueOf (read.asWritten levelsJob).env "LTO" = some "thin" at hset
  refine ⟨?_, Or.inr (Or.inr (Or.inl (by rw [hset]; rfl)))⟩
  unfold jobMisses
  rw [hset]
  split
  · rename_i t _ ht
    cases ht
    exact misses_of_closed (by decide)
  · rfl

/-- A key of the workflow alone does not reach the step. -/
theorem workflow_env_lost : ¬ ∀ (Y : Type) (y : YamlCrate Y) (yaml : String) (wf : Workflow Y)
    (plan : BuiltPlan) (cell : PlannedJob) (job : Job Y) (step : StepFile) (ctx : Json.Obj)
    (k : String), Workflow.parse y "build.yml" yaml = .ok wf →
    Plan.build y Floats.absent wf = .ok plan → cell ∈ plan.cells → (cell.baseId, job) ∈ wf.jobs →
    step ∈ cell.blocks → stepEnv Floats.absent cell.toJobPlan step.toStepBlock ctx k =
      layeredEnv Floats.absent wf.env (cell.asWritten job) step.toStepBlock ctx k := by
  intro hall
  have hfirst : (firstStep levelsCrate "").map (fun (wf, _, cell, step) =>
      (stepEnv Floats.absent cell.toJobPlan step.toStepBlock [] "CARGO_TERM_COLOR",
        layeredEnv Floats.absent wf.env (cell.asWritten levelsJob) step.toStepBlock []
          "CARGO_TERM_COLOR")) = some (none, some "never") := by decide
  obtain ⟨⟨wf, plan, cell, step⟩, hmem, heq⟩ := Option.map_eq_some_iff.mp hfirst
  obtain ⟨hgot, hmeant⟩ := Prod.mk.inj heq
  obtain ⟨hparse, hbuild, hcell, hstep⟩ := firstStep_ok hmem
  obtain ⟨job, hjob, -, -⟩ := cell_written hbuild hcell
  have hlevels : job = levelsJob := by
    obtain ⟨_, _, _, -, -, -, -, -, hj⟩ := written_of_parse hparse hjob
    cases hj
    rfl
  have h := hall Note levelsCrate "" wf plan cell job step [] "CARGO_TERM_COLOR" hparse hbuild hcell
    hjob hstep
  rw [hlevels, hgot, hmeant] at h
  cases h

end Levels

end HeyoCi
