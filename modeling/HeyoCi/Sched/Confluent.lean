import HeyoCi.Sched.Cancel
import HeyoCi.Sched.Tracked

/-!
# Two schedules of one run

* `Scheduled`: the end of a complete schedule of a run that nothing disturbs;
* `Db.IsRun`, `Steady`: the invariant of one schedule, `steady_moves`;
* `Db.Matches`: the finished jobs of one state are as in another, **`matches_moves`**;
* **`confluent`**: two complete schedules end alike when no `if:` reads an undeclared job;
* `evalResult`, `askingPlan`: two orders of one plan, for `deploy_depends_on_order`.
-/

namespace HeyoCi

/-! ## Complete schedules -/

/-- The run, if it is submitted, is submitted as this request and plan. -/
def Act.Submits (runId : String) (req : RunRequest) (plan : Plan) (a : Act) : Prop :=
  ∀ r p, a = .submit runId r p → r = req ∧ p = plan

/-- The jobs of the run are all over. -/
def World.Complete (runId : String) (w : World) : Prop :=
  w.db.HasRun runId ∧ w.db.AllTerminal runId

instance (runId : String) (req : RunRequest) (plan : Plan) (a : Act) :
    Decidable (a.Submits runId req plan) := match a with
  | .submit r req' plan' => decidable_of_iff (r = runId → req' = req ∧ plan' = plan)
      ⟨fun h _ _ ha => by cases ha; exact h rfl, fun h hr => h req' plan' (by rw [hr])⟩
  | .tick _ | .setPool _ | .advance _ | .pass .. | .passDies _ | .deliver _ | .execDies _ | .exec ..
  | .cancelRun _ | .cancelJobs _ | .cancelDies _ | .watch | .watchJob .. | .watchDies _ =>
    .isTrue fun _ _ ha => by cases ha

instance (runId : String) (w : World) : Decidable (w.Complete runId) :=
  inferInstanceAs (Decidable ((∃ r ∈ w.db.runs.rows, r.id = runId) ∧
    ∀ j ∈ w.db.jobs.rows, j.runId = runId → j.status.isTerminal = true))

/-- A complete schedule of the run ends here: nothing disturbed it, each job that was run gave its
result, and its steps kept to a law. -/
def Scheduled (env : Env) (result : String → JobStatus × Json) (runId : String) (req : RunRequest)
    (plan : Plan) (law : World → Act → Prop) (w : World) : Prop :=
  ∃ now pool as, (machine env).run (World.start now pool) as = some w ∧
    (machine env).Throughout (fun w a _ => a.Submits runId req plan ∧
      w.Undisturbed env result runId a ∧ law w a) (World.start now pool) as ∧ w.Complete runId

/-! ## One schedule -/

/-- The run has the jobs of the plan, and expressions see the request. -/
def Db.IsRun (db : Db) (runId : String) (req : RunRequest) (plan : Plan) : Prop :=
  db.HasRun runId → (db.jobsOf runId).map JobRow.cell = plan.cells runId ∧
    ciScope (db.getRun runId) = ciScope (some (req.row 0 runId plan))

/-- **The invariant of a schedule.** -/
structure Steady (env : Env) (result : String → JobStatus × Json) (runId : String)
    (req : RunRequest) (plan : Plan) (w : World) : Prop where
  ordered : Ordered w
  tracked : Tracked env result runId w
  isRun : w.db.IsRun runId req plan

section Steady

variable {env : Env} {result : String → JobStatus × Json} {runId : String} {req : RunRequest}
  {plan : Plan} {w : World} {a : Act} {st : Stmt} {c : Ctl}

theorem isRun_moves (h : World.Moves env w a st c) (ho : w.db.Owned)
    (hw : w.db.IsRun runId req plan) (hs : a.Submits runId req plan) :
    (w.db.exec st).IsRun runId req plan := by
  by_cases hhas : w.db.HasRun runId
  · intro _
    rw [Db.cells_exec hhas, Db.ciScope_exec hhas]
    exact hw hhas
  · rintro ⟨r', hr', hid⟩
    rcases Db.mem_exec_runs hr' with ⟨r, hr, heq⟩ | ⟨-, -, req', plan', hst, hsome⟩
    · refine absurd ⟨r, hr, ?_⟩ hhas
      rw [← hid, ← heq, (st.onRuns w.db.now).key_row]
    · rw [hid] at hst hsome
      cases h with
      | pass i p hi r m hm hr => cases hm <;> cases hst
      | exec i x hi o m hm ho' => cases hm <;> cases hst
      | submit runId' req'' plan'' hsub =>
        cases hst
        obtain ⟨rfl, rfl⟩ := hs _ _ rfl
        exact Db.cells_createRun ho hsome
      | _ => cases hst

theorem steady_moves (h : World.Moves env w a st c) (hst : stmtOf env w a = some st)
    (hw : Steady env result runId req plan w) (hs : a.Submits runId req plan)
    (hu : w.Undisturbed env result runId a) (hl : w.Local env runId a) :
    Steady env result runId req plan ⟨w.db.exec st, c⟩ :=
  ⟨ordered_moves h hw.ordered, tracked_moves h hst hw.tracked hw.ordered hu hl,
    isRun_moves h hw.ordered.owned hw.isRun hs⟩

theorem steady_start (now : Nat) (pool : Pool) :
    Steady env result runId req plan (World.start now pool) := by
  refine ⟨ordered_start now pool, tracked_start env result runId now pool, ?_⟩
  rintro ⟨r, hr, -⟩
  cases hr

/-- What holds at the start and is kept by the steps of a schedule holds at its end. -/
theorem Scheduled.inv {I : World → Prop} (h₀ : ∀ now pool, I (World.start now pool))
    (hstep : ∀ w a st c, World.Moves env w a st c → stmtOf env w a = some st →
      a.Submits runId req plan → w.Undisturbed env result runId a → w.Local env runId a → I w →
      I ⟨w.db.exec st, c⟩)
    (h : Scheduled env result runId req plan (World.Local env runId) w) : I w := by
  obtain ⟨now, pool, as, hrun, hlaw, -⟩ := h
  refine Machine.Reach.inv I (fun w a w' hI hok hs => ?_) (hlaw.reach hrun) (h₀ now pool)
  obtain ⟨hsub, hu, hl⟩ := hok w' hs
  obtain ⟨st, c, hst, hm, rfl⟩ := step_cases hs
  exact hstep w a st c hm hst hsub hu hl hI

theorem Scheduled.complete {law : World → Act → Prop}
    (h : Scheduled env result runId req plan law w) : w.Complete runId := by
  obtain ⟨_, _, _, -, -, hc⟩ := h
  exact hc

theorem Scheduled.steady (h : Scheduled env result runId req plan (World.Local env runId) w) :
    Steady env result runId req plan w :=
  h.inv (fun now pool => steady_start now pool) fun _ _ _ _ hm hst hs hu hl hw =>
    steady_moves hm hst hw hs hu hl

end Steady

/-! ## Two schedules -/

/-- The finished jobs of the run are as in `db₂`. -/
def Db.Matches (runId : String) (db₂ db : Db) : Prop :=
  ∀ j ∈ db.jobs.rows, j.runId = runId → j.status.isTerminal = true → ∀ j₂ ∈ db₂.jobs.rows,
    j₂.id = j.id → j₂.status = j.status ∧ j₂.outputs = j.outputs

section Matches

variable {env : Env} {result : String → JobStatus × Json} {runId : String} {req : RunRequest}
  {plan : Plan}

section IsRun

variable {db db₂ : Db} (h : db.IsRun runId req plan) (h₂ : db₂.IsRun runId req plan)
  (hhas : db.HasRun runId) (hhas₂ : db₂.HasRun runId)

include h h₂ hhas hhas₂

theorem Db.IsRun.cells_eq :
    (db.jobsOf runId).map JobRow.cell = (db₂.jobsOf runId).map JobRow.cell := by
  rw [(h hhas).1, (h₂ hhas₂).1]

/-- A job of one schedule is there in the other. -/
theorem Db.IsRun.mem {j : JobRow} (hj : j ∈ db.jobs.rows) (hrun : j.runId = runId) :
    ∃ j₂ ∈ db₂.jobs.rows, j₂.runId = runId ∧ j₂.cell = j.cell := by
  have hmem : j.cell ∈ (db₂.jobsOf runId).map JobRow.cell := by
    rw [← Db.IsRun.cells_eq h h₂ hhas hhas₂]
    exact List.mem_map_of_mem (Db.mem_jobsOf.mpr ⟨hj, hrun⟩)
  obtain ⟨j₂, hj₂, hcell⟩ := List.mem_map.mp hmem
  exact ⟨j₂, (Db.mem_jobsOf.mp hj₂).1, (Db.mem_jobsOf.mp hj₂).2, hcell⟩

/-- **Needs that are over and alike give one verdict.** -/
theorem Db.IsRun.verdict_eq (hm : db₂.Matches runId db) {p : JobPlan} (hover : db.Over runId p) :
    db.verdict env runId p = db₂.verdict env runId p := by
  have hagree : Agree p.needs (db.jobsOf runId) (db₂.jobsOf runId) := by
    refine ⟨Db.IsRun.cells_eq h h₂ hhas hhas₂, fun j hj hn j' hj' hid => ?_⟩
    obtain ⟨hj, hrun⟩ := Db.mem_jobsOf.mp hj
    exact hm j hj hrun (hover _ hn j hj hrun rfl) j' (Db.mem_jobsOf.mp hj').1 hid
  rw [Db.verdict, Db.verdict, (h hhas).2, (h₂ hhas₂).2, Db.needsContext, Db.needsContext,
    hagree.context]

end IsRun

/-- **A step of one schedule finishes no job otherwise than the other schedule did.** -/
theorem matches_moves {w w₂ : World} {a : Act} {st : Stmt} {c : Ctl} (h : World.Moves env w a st c)
    (hst : stmtOf env w a = some st) (hw : Steady env result runId req plan w)
    (hu : w.Undisturbed env result runId a) (hl : w.Local env runId a)
    (hw₂ : Steady env result runId req plan w₂) (hc₂ : w₂.Complete runId)
    (hm : w₂.db.Matches runId w.db) : w₂.db.Matches runId (w.db.exec st) := by
  intro j' hj' hrun ht j₂ hj₂ hid
  rcases Db.mem_exec_jobs.mp hj' with ⟨j, hj, rfl⟩ | hnew
  · have hsame := st.same w.db.now j
    rw [hsame.runId] at hrun
    rw [hsame.id] at hid
    have hhas := hw.ordered.owned j hj
    rw [hrun] at hhas
    obtain ⟨j₃, hj₃, hrun₃, hcell⟩ := Db.IsRun.mem hw.isRun hw₂.isRun hhas hc₂.1 hj hrun
    obtain ⟨hid₃, -, -, hplan₃⟩ := Cell.mk.inj hcell
    obtain rfl := w₂.db.jobs.eq_of_key hj₃ hj₂ (hid₃.trans hid.symm)
    obtain ⟨p, hplan, hover, hfate⟩ :=
      settled_row h hst hw.tracked hw.ordered hu hl hj hrun ht
    obtain ⟨p₂, hplan₂, -, hfate₂⟩ := (hw₂.tracked.rows j₃ hj₃ hrun₃).terminal (hc₂.2 j₃ hj₃ hrun₃)
    obtain rfl : p = p₂ := by
      rw [hsame.plan, ← hplan₃, hplan₂] at hplan
      exact (Except.ok.inj hplan).symm
    rw [hsame.runId, hrun] at hover hfate
    rw [hrun₃, ← Db.IsRun.verdict_eq hw.isRun hw₂.isRun hhas hc₂.1 hm hover] at hfate₂
    exact hfate.unique hfate₂ (hid.trans hsame.id.symm)
  · rw [(Db.inserted_spec hnew).1] at ht
    cases ht

end Matches

/-- **Two complete schedules end alike**, with the same status and the same outputs of every job,
when no `if:` of the run reads an entry its job does not declare. -/
theorem confluent (env : Env) (result : String → JobStatus × Json) (runId : String)
    (req : RunRequest) (plan : Plan) {w₁ w₂ : World}
    (h₁ : Scheduled env result runId req plan (World.Local env runId) w₁)
    (h₂ : Scheduled env result runId req plan (World.Local env runId) w₂) :
    ∀ j₁ ∈ w₁.db.jobs.rows, j₁.runId = runId →
      ∃ j₂ ∈ w₂.db.jobs.rows, j₂.id = j₁.id ∧ j₂.status = j₁.status ∧ j₂.outputs = j₁.outputs := by
  have hs₁ := h₁.steady
  have hs₂ := h₂.steady
  obtain ⟨hhas₁, hall₁⟩ := h₁.complete
  have hc₂ := h₂.complete
  have hmatch : w₂.db.Matches runId w₁.db := by
    refine (h₁.inv (I := fun w => Steady env result runId req plan w ∧ w₂.db.Matches runId w.db)
      (fun now pool => ⟨steady_start now pool, fun j hj => by cases hj⟩) ?_).2
    rintro w a st c hm hst hsub hu hl ⟨hw, hmatch⟩
    exact ⟨steady_moves hm hst hw hsub hu hl, matches_moves hm hst hw hu hl hs₂ hc₂ hmatch⟩
  intro j₁ hj₁ hrun₁
  obtain ⟨j₂, hj₂, -, hcell⟩ := Db.IsRun.mem hs₁.isRun hs₂.isRun hhas₁ hc₂.1 hj₁ hrun₁
  have hid : j₂.id = j₁.id := (Cell.mk.inj hcell).1
  exact ⟨j₂, hj₂, hid, hmatch j₁ hj₁ hrun₁ (hall₁ j₁ hj₁ hrun₁) j₂ hj₂ hid⟩

/-! ## One plan in two orders -/

/-- The evaluator, on `needs.<n>.result == 'success'`. -/
def evalResult (ctx : Json.Obj) (condition : String) : Except String Bool :=
  match ctx.get "needs" with
  | some (.obj needs) => .ok (needs.any fun (n, e) => match e with
      | .obj entry => condition = s!"needs.{n}.result == 'success'" ∧
          Json.Obj.get entry "result" = some (.str "success")
      | _ => false)
  | _ => .ok false

def Env.asking : Env := ⟨evalResult, 900, 14400⟩

/-- `build`, `lint`, and a `deploy` that needs `build` and runs when job `n` has succeeded. -/
def askingPlan (n : String) : Plan where
  workflowPath := ".ci/build.yml"
  workflowName := none
  jobs := [.plain "build" [], .plain "lint" [],
    { JobPlan.plain "deploy" ["build"] with condition := some s!"needs.{n}.result == 'success'" }]
  needs_cells := by simp [JobPlan.plain]

/-- Every job that is run succeeds, without outputs. -/
def succeeds (_ : String) : JobStatus × Json := (.success, .obj [])

/-- The jobs are run in the order of these messages, and the pass after each queues so many more. -/
def inTurn (n : String) (turns : List (Nat × Nat)) : List Act :=
  .submit "r" .plain (askingPlan n) :: (schedule 3 2 ++
    turns.flatMap fun (seq, queued) => takeJob seq ++ succeedJob ++ schedule 3 queued)

/-- `deploy` is over like this. -/
def World.Deployed (w : World) (s : JobStatus) : Prop :=
  ∃ j ∈ w.db.jobs.rows, j.runId = "r" ∧ j.id = "r.deploy" ∧ j.status = s

instance (w : World) (s : JobStatus) : Decidable (w.Deployed s) :=
  inferInstanceAs (Decidable (∃ j ∈ w.db.jobs.rows, j.runId = "r" ∧ j.id = "r.deploy" ∧ j.status = s))

theorem scheduled_inTurn (n : String) (turns : List (Nat × Nat)) (law : World → Act → Prop)
    (s : JobStatus)
    (hlaw : (machine .asking).Throughout (fun w a _ => a.Submits "r" .plain (askingPlan n) ∧
      w.Undisturbed .asking succeeds "r" a ∧ law w a) (World.start 0 .single) (inTurn n turns))
    (hrun : ((machine .asking).run (World.start 0 .single) (inTurn n turns)).map
      (fun w => decide (w.Complete "r" ∧ w.Deployed s)) = some true) :
    ∃ w, Scheduled .asking succeeds "r" .plain (askingPlan n) law w ∧ w.Deployed s := by
  obtain ⟨w, hw, hd⟩ := Option.map_eq_some_iff.mp hrun
  obtain ⟨hc, hs⟩ := of_decide_eq_true hd
  exact ⟨w, ⟨0, .single, _, hw, hlaw, hc⟩, hs⟩

theorem confluent_inTurn : ∃ w₁ w₂ : World, w₁.Deployed .success ∧
    Scheduled .asking succeeds "r" .plain (askingPlan "build") (World.Local .asking "r") w₁ ∧
    Scheduled .asking succeeds "r" .plain (askingPlan "build") (World.Local .asking "r") w₂ ∧
    ∀ j₁ ∈ w₁.db.jobs.rows, j₁.runId = "r" →
      ∃ j₂ ∈ w₂.db.jobs.rows, j₂.id = j₁.id ∧ j₂.status = j₁.status ∧ j₂.outputs = j₁.outputs := by
  obtain ⟨w₁, h₁, hs⟩ := scheduled_inTurn "build" [(0, 1), (1, 0), (2, 0)]
    (World.Local .asking "r") .success (by decide +kernel) (by decide +kernel)
  obtain ⟨w₂, h₂, -⟩ := scheduled_inTurn "build" [(1, 0), (0, 1), (2, 0)]
    (World.Local .asking "r") .success (by decide +kernel) (by decide +kernel)
  exact ⟨w₁, w₂, hs, h₁, h₂, confluent .asking succeeds "r" .plain (askingPlan "build") h₁ h₂⟩

/-- `deploy` does not declare `lint` and asks for its result: whether it is run depends on which of
`build` and `lint` is over first. -/
theorem deploy_depends_on_order : ¬ ∀ (env : Env) (result : String → JobStatus × Json)
    (runId : String) (req : RunRequest) (plan : Plan) (w₁ w₂ : World),
    Scheduled env result runId req plan (fun _ _ => True) w₁ →
    Scheduled env result runId req plan (fun _ _ => True) w₂ →
    ∀ j₁ ∈ w₁.db.jobs.rows, j₁.runId = runId →
      ∃ j₂ ∈ w₂.db.jobs.rows, j₂.id = j₁.id ∧ j₂.status = j₁.status := by
  intro h
  obtain ⟨w₁, h₁, j₁, hj₁, hrun₁, hid₁, hs₁⟩ := scheduled_inTurn "lint" [(0, 0), (1, 0)]
    (fun _ _ => True) .skipped (by decide +kernel) (by decide +kernel)
  obtain ⟨w₂, h₂, j₂, hj₂, -, hid₂, hs₂⟩ := scheduled_inTurn "lint" [(1, 0), (0, 1), (2, 0)]
    (fun _ _ => True) .success (by decide +kernel) (by decide +kernel)
  obtain ⟨j, hj, hid, hs⟩ := h _ _ _ _ _ w₁ w₂ h₁ h₂ j₁ hj₁ hrun₁
  obtain rfl := w₂.db.jobs.eq_of_key hj hj₂ (hid.trans (hid₁.trans hid₂.symm))
  rw [hs₂, hs₁] at hs
  cases hs

end HeyoCi
