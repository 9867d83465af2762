import HeyoCi.Plan.Keys
import HeyoCi.Plan.Matrix

/-!
# The plan of a workflow

* `PlannedJob`: a cell with all its executor reads; its job plan is what the scheduler reads;
* `orderFrom`, `topologicalOrder`: the cells in waves; `topologicalOrder_perm`,
  `topologicalOrder_needs`;
* `Draft`, `draftsOf`, `cellsOf`: the cells of the jobs, and their keys;
* `BuiltPlan`, `Plan.build`: the plan; **`nodup_keys`**, **`keys_ok`**.
-/

namespace HeyoCi

open HeyoCi.Expr

/-! ## Cells -/

/-- A cell with its block of `vm:`, its steps as they are written and its timeout in seconds. -/
structure PlannedJob extends JobPlan where
  vmBlock : VmBlock
  blocks : List StepFile
  timeout : Nat
  vm_eq : vm = vmBlock.toVmSpec
  steps_eq : steps = blocks.map fun b => b.toStep

/-- `substitute_matrix`. -/
def PlannedJob.substituteMatrix {F : Type} (fl : Floats F) (job : PlannedJob) : PlannedJob :=
  let sub := substitute fl job.baseContext
  { job.toJobPlan.substituteMatrix fl with
    vmBlock := { job.vmBlock with
      image := job.vmBlock.image.map sub
      envVars := job.vmBlock.envVars.map fun (k, v) => (k, sub v)
      setupHooks := job.vmBlock.setupHooks.map sub }
    blocks := job.blocks
    timeout := job.timeout
    vm_eq := by simp only [JobPlan.substituteMatrix, job.vm_eq, sub]
    steps_eq := job.steps_eq }

/-! ## Order -/

/-- The bases a job waits for are done. -/
def ready (done : List String) (job : PlannedJob) : Bool := job.needs.all fun n => done.contains n

/-- The names in the error about jobs that can never start. -/
def stuck (allBases : List String) (remaining : List PlannedJob) : List String :=
  let missing := remaining.flatMap fun j => j.needs.filter fun n => !allBases.contains n
  if missing.isEmpty then remaining.map (·.key) else missing

/-- Waves of ready cells. A wave is not empty, so there are no more of them than cells. -/
def orderFrom (allBases : List String) :
    Nat → List String → List PlannedJob → Except PlanError (List PlannedJob)
  | _, _, [] => .ok []
  | 0, _, remaining => .error (.unsatisfiable (stuck allBases remaining))
  | waves + 1, done, remaining =>
    let wave := remaining.filter (ready done)
    if wave.isEmpty then .error (.unsatisfiable (stuck allBases remaining))
    else (orderFrom allBases waves (done ++ wave.map (·.baseId))
      (remaining.filter fun j => !ready done j)).map (wave ++ ·)

/-- `topological_order`. -/
def topologicalOrder (jobs : List PlannedJob) : Except PlanError (List PlannedJob) :=
  orderFrom (jobs.map (·.baseId)) jobs.length [] jobs

theorem orderFrom_ok {allBases : List String} {waves : Nat} {done : List String}
    {remaining ordered : List PlannedJob}
    (h : orderFrom allBases waves done remaining = .ok ordered) : ordered.Perm remaining ∧
      ∀ j ∈ ordered, ∀ n ∈ j.needs, n ∈ done ∨ ∃ c ∈ ordered, c.baseId = n := by
  induction waves generalizing done remaining ordered with
  | zero =>
    cases remaining with
    | nil =>
      cases h
      exact ⟨.nil, fun _ hj => absurd hj List.not_mem_nil⟩
    | cons j remaining => cases h
  | succ waves ih =>
    cases remaining with
    | nil =>
      cases h
      exact ⟨.nil, fun _ hj => absurd hj List.not_mem_nil⟩
    | cons j rest =>
      obtain ⟨-, h⟩ := Loop.guard_ok_iff.mp h
      obtain ⟨later, hlater, rfl⟩ := Descent.map_ok.mp h
      obtain ⟨hperm, hneeds⟩ := ih hlater
      constructor
      · exact (hperm.append_left _).trans (List.filter_append_perm _ _)
      · intro c hc n hn
        rcases List.mem_append.mp hc with hwave | hlate
        · have hready := (List.mem_filter.mp hwave).2
          have hdone := List.all_eq_true.mp hready n hn
          exact Or.inl (List.contains_iff_mem.mp hdone)
        · rcases hneeds c hlate n hn with hdone | ⟨c', hc', hbase⟩
          · rcases List.mem_append.mp hdone with hdone | hdone
            · exact Or.inl hdone
            · obtain ⟨c', hc', hbase⟩ := List.mem_map.mp hdone
              exact Or.inr ⟨c', List.mem_append_left _ hc', hbase⟩
          · exact Or.inr ⟨c', List.mem_append_right _ hc', hbase⟩

theorem topologicalOrder_perm {jobs ordered : List PlannedJob}
    (h : topologicalOrder jobs = .ok ordered) : ordered.Perm jobs := (orderFrom_ok h).1

/-- A plan has a cell for every need. -/
theorem topologicalOrder_needs {jobs ordered : List PlannedJob}
    (h : topologicalOrder jobs = .ok ordered) :
    ∀ j ∈ ordered, ∀ n ∈ j.needs, ∃ c ∈ ordered, c.baseId = n := fun j hj n hn =>
  ((orderFrom_ok h).2 j hj n hn).resolve_left List.not_mem_nil

/-! ## The cells of the jobs -/

def defaultJobTimeoutMinutes : Nat := 60

/-- A cell before it has a key. -/
structure Draft (Y : Type) where
  id : String
  job : Job Y
  index : Nat
  mtx : Json.Obj
  target : Target

section

variable {Y F : Type} (y : YamlCrate Y) (fl : Floats F)

/-- `display_label`. -/
def displayLabel (name : Option String) (id : String) (mtx : Json.Obj) : String :=
  let base := name.getD id
  let values := Text.join (mtx.map fun kv => displayValue fl kv.2)
  if mtx.isEmpty then base else s!"{base} ({values})"

/-- The cell with a key, its minutes as seconds in 64 bits. -/
def Draft.plan (d : Draft Y) (key : String) : PlannedJob :=
  PlannedJob.substituteMatrix fl
    { key := key
      baseId := d.id
      display := displayLabel fl d.job.name d.id d.mtx
      target := d.target
      fallback := d.job.fallback
      vm := d.job.vm.toVmSpec
      needs := d.job.needs
      condition := d.job.condition
      mtx := d.mtx
      env := d.job.env
      outputs := d.job.outputs
      continueOnError := d.job.continueOnError
      steps := d.job.steps.map fun b => b.toStep
      maxParallel := d.job.strategy.bind (·.maxParallel)
      failFast := (d.job.strategy.map (·.failFast)).getD true
      vmBlock := d.job.vm
      blocks := d.job.steps
      timeout := (d.job.timeoutMinutes.getD defaultJobTimeoutMinutes) * 60 % 2 ^ 64
      vm_eq := rfl
      steps_eq := rfl }

/-- The cells of one job. -/
def draftsOf (entry : String × Job Y) : Except PlanError (List (Draft Y)) := do
  let combos ← expandMatrix y entry.1 entry.2
  let target ← entry.2.target.mapError fun e => .workflow e.display
  .ok (combos.zipIdx.map fun (mtx, index) => ⟨entry.1, entry.2, index, mtx, target⟩)

/-- The keys of the cells: no key is given twice in a plan. -/
def keysOf (drafts : List (Draft Y)) : List String :=
  Fresh.assign (fun d used => uniqueKey fl d.id d.mtx d.index used) drafts []

def cellsOf (drafts : List (Draft Y)) : List PlannedJob :=
  (drafts.zip (keysOf fl drafts)).map fun dk => dk.1.plan fl dk.2

/-- A plan with its cells, and the `env:` of the workflow. -/
structure BuiltPlan extends Plan where
  env : List (String × String)
  cells : List PlannedJob
  cells_eq : jobs = cells.map fun c => c.toJobPlan

/-- The plan of some cells. -/
def BuiltPlan.ofCells (wf : Workflow Y) (cells : List PlannedJob)
    (hneeds : ∀ j ∈ cells, ∀ n ∈ j.needs, ∃ c ∈ cells, c.baseId = n) : BuiltPlan where
  workflowPath := wf.path
  workflowName := wf.name
  jobs := cells.map fun c => c.toJobPlan
  needs_cells := by
    intro j hj n hn
    obtain ⟨c, hc, rfl⟩ := List.mem_map.mp hj
    obtain ⟨c', hc', hbase⟩ := hneeds c hc n hn
    exact ⟨_, List.mem_map_of_mem hc', hbase⟩
  env := wf.env
  cells := cells
  cells_eq := rfl

/-- `Plan::build`. -/
def Plan.build (wf : Workflow Y) : Except PlanError BuiltPlan := do
  let drafts ← Loop.mapEach (draftsOf y) wf.jobs
  match h : topologicalOrder (cellsOf fl drafts.flatten) with
  | .error e => .error e
  | .ok cells => .ok (BuiltPlan.ofCells wf cells (topologicalOrder_needs h))

variable {y fl}

/-! ## What a plan is made of -/

/-- **The cells of a plan**, up to their order. -/
theorem build_ok {wf : Workflow Y} {plan : BuiltPlan} (h : Plan.build y fl wf = .ok plan) :
    ∃ drafts, Loop.mapEach (draftsOf y) wf.jobs = .ok drafts ∧
      plan.cells.Perm (cellsOf fl drafts.flatten) ∧ plan.env = wf.env := by
  obtain ⟨drafts, hdrafts, h⟩ := Loop.bind_ok_iff.mp h
  refine ⟨drafts, hdrafts, ?_⟩
  split at h
  · cases h
  · rename_i cells hcells
    cases h
    exact ⟨topologicalOrder_perm hcells, rfl⟩

/-- A draft is a cell of a job of the file, with a number below the number of cells. -/
theorem draft_of_mem {wf : Workflow Y} {drafts : List (List (Draft Y))}
    (h : Loop.mapEach (draftsOf y) wf.jobs = .ok drafts) {d : Draft Y} (hd : d ∈ drafts.flatten) :
    (d.id, d.job) ∈ wf.jobs ∧ d.index < drafts.flatten.length := by
  obtain ⟨ds, hds, hmem⟩ := List.mem_flatten.mp hd
  have himage : (.ok ds : Except PlanError _) ∈ wf.jobs.map (draftsOf y) := by
    rw [Loop.mapEach_ok_iff.mp h]
    exact List.mem_map_of_mem hds
  obtain ⟨entry, hentry, hof⟩ := List.mem_map.mp himage
  obtain ⟨combos, -, hof⟩ := Loop.bind_ok_iff.mp hof
  obtain ⟨target, -, hof⟩ := Loop.bind_ok_iff.mp hof
  have hds_eq : combos.zipIdx.map (fun (mtx, index) =>
      (⟨entry.1, entry.2, index, mtx, target⟩ : Draft Y)) = ds := by
    injection hof
  have hlen : ds.length ≤ drafts.flatten.length := (List.sublist_flatten_of_mem hds).length_le
  rw [← hds_eq] at hmem hlen
  obtain ⟨⟨mtx, index⟩, hpair, rfl⟩ := List.mem_map.mp hmem
  have hindex := List.snd_lt_of_mem_zipIdx hpair
  rw [List.length_map, List.length_zipIdx] at hlen
  exact ⟨hentry, by simp only at hindex ⊢; omega⟩

theorem map_key_cellsOf (fl : Floats F) (drafts : List (Draft Y)) :
    (cellsOf fl drafts).map (fun c => c.key) = keysOf fl drafts := by
  have hlen : (keysOf fl drafts).length = drafts.length := Fresh.length_assign _ _
  rw [cellsOf, List.map_map]
  exact List.map_snd_zip (Nat.le_of_eq hlen)

theorem length_cells {plan : BuiltPlan} {drafts : List (List (Draft Y))}
    (hperm : plan.cells.Perm (cellsOf fl drafts.flatten)) :
    plan.cells.length = drafts.flatten.length := by
  have hlen := congrArg List.length (map_key_cellsOf fl drafts.flatten)
  rw [List.length_map, keysOf, Fresh.length_assign] at hlen
  rw [hperm.length_eq, hlen]

/-- **The keys of a plan are all different.** -/
theorem nodup_keys {wf : Workflow Y} {plan : BuiltPlan} (h : Plan.build y fl wf = .ok plan) :
    (plan.cells.map fun c => c.key).Nodup := by
  obtain ⟨drafts, -, hperm, -⟩ := build_ok h
  have hpick : ∀ (d : Draft Y) (used : List String),
      uniqueKey fl d.id d.mtx d.index used ∉ used := fun d used =>
    uniqueKey_notMem fl d.id d.mtx d.index used
  have hnodup : (keysOf fl drafts.flatten).Nodup :=
    (Fresh.nodup_assign hpick drafts.flatten []).1
  rw [← map_key_cellsOf fl] at hnodup
  exact (hperm.map fun c => c.key).nodup_iff.mpr hnodup

/-- **A key of a plan fits into a subject and is short.** -/
theorem keys_ok {path yaml : String} {wf : Workflow Y} {plan : BuiltPlan}
    (hparse : Workflow.parse y path yaml = .ok wf) (h : Plan.build y fl wf = .ok plan)
    (hcount : plan.cells.length < 2 ^ 63) {c : PlannedJob} (hc : c ∈ plan.cells) :
    isSubjectToken c.key = true ∧ c.key.length ≤ 85 := by
  obtain ⟨drafts, hdrafts, hperm, -⟩ := build_ok h
  have hmem : c.key ∈ keysOf fl drafts.flatten := by
    rw [← map_key_cellsOf fl]
    exact List.mem_map_of_mem (hperm.mem_iff.mp hc)
  obtain ⟨d, hd, taken, htaken, heq⟩ := Fresh.mem_assign hmem
  obtain ⟨hjob, hindex⟩ := draft_of_mem hdrafts hd
  rw [length_cells hperm] at hcount
  rw [List.length_nil, Nat.zero_add] at htaken
  rw [heq]
  apply uniqueKey_ok
  · exact Workflow.isJobId_of_parse hparse _ hjob
  · omega

end

end HeyoCi
