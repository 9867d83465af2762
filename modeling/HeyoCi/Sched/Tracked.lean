import HeyoCi.Sched.Fate

/-!
# A run that nothing disturbs

When each job that is run gives a fixed result and each `if:` reads no more than the needs its job
declares, every job that is over has the fate its needs give it.

* `Pass.Asks`, `World.Undisturbed`, `World.Local`: what the steps of such a run do;
* `Db.Due`, `Db.Settled`, `RowOk`: what is known of its jobs, `Snapshot.Known` of its passes;
* `Tracked`: the invariant;
* `Tracked.asks`: what a pass asks is answered by the verdict;
* `due_of`, `sets_of`, `outputs_of`, `keeps_row`: what a statement says about the job it writes;
* **`tracked_moves`**: every step keeps the invariant.
-/

namespace HeyoCi

/-! ## Steps that disturb nothing -/

/-- The next thing the pass does is to evaluate the `if:` of a job. -/
def Pass.Asks (p : Pass) (snap : Snapshot) (j : JobRow) (plan : JobPlan) : Prop :=
  ∃ todo, p.pc = .next snap (j :: todo) ∧ j.status = .pending ∧ j.plan = .ok plan ∧
    needsDone snap.jobs plan = true

/-- A job that is to run has a queue. -/
def Pass.Routed (env : Env) (pool : Pool) (p : Pass) : Prop := ∀ snap j plan, p.Asks snap j plan →
  shouldRun env plan snap.needs snap.ci = .ok true → ∃ route, routeFor pool plan = .ok route

/-- The `if:` says the same without the entries of jobs that its job does not declare. -/
def Pass.Local (env : Env) (p : Pass) : Prop := ∀ snap j plan, p.Asks snap j plan →
  ∀ condition, plan.condition = some condition →
    env.evalCondition (plan.scopes snap.needs snap.ci) condition =
      env.evalCondition (plan.scopes (snap.needs.only plan.needs) snap.ci) condition

/-- What is recorded of a job of the run is its result. -/
def Stmt.Records (st : Stmt) (db : Db) (result : String → JobStatus × Json) (runId : String) : Prop :=
  ∀ j ∈ db.jobs.rows, j.runId = runId →
    (∀ s e, st = .setJobStatus j.id s e → result j.id = (s, j.outputs)) ∧
      ∀ o, st = .setJobOutputs j.id o → (result j.id).2 = o

/-- No job of the run is given up. -/
def Stmt.Spares (st : Stmt) (db : Db) (runId : String) : Prop :=
  ∀ j ∈ db.jobs.rows, j.runId = runId → ∀ s e, st ≠ .setJobStatus j.id s e

section Law

variable (env : Env) (result : String → JobStatus × Json) (runId : String) (w : World)

/-- The run is not cancelled, none of its jobs is without a queue or given up for want of a host, and
what an execution records of a job is its result. -/
def World.Undisturbed : Act → Prop
  | .pass i _ => ∀ p, w.ctl.passes[i]? = some p → p.runId = runId → p.Routed env w.ctl.pool
  | .exec i o => ∀ st, stmtOf env w (.exec i o) = some st → st.Records w.db result runId
  | .watchJob i r => ∀ st, stmtOf env w (.watchJob i r) = some st → st.Spares w.db runId
  | .cancelJobs i => w.ctl.cancels[i]? ≠ some runId
  | _ => True

/-- An `if:` of the run reads no more than the needs of its job. -/
def World.Local (a : Act) : Prop := ∀ i r, a = .pass i r → ∀ p, w.ctl.passes[i]? = some p →
  p.runId = runId → p.Local env

end Law

section Decide

/-- The job whose `if:` the pass evaluates next. -/
def Pass.asked (p : Pass) : Option (Snapshot × JobRow × JobPlan) := match p.pc with
  | .next snap (j :: _) => j.plan.toOption.bind fun plan =>
      if j.status = .pending ∧ needsDone snap.jobs plan = true then some (snap, j, plan) else none
  | _ => none

theorem Pass.asked_iff {p : Pass} {snap : Snapshot} {j : JobRow} {plan : JobPlan} :
    p.asked = some (snap, j, plan) ↔ p.Asks snap j plan := by
  obtain ⟨runId, pc⟩ := p
  cases pc with
  | next s todo =>
    cases todo with
    | nil => simp [asked, Asks]
    | cons k todo =>
      have hok : ∀ e : Except String JobPlan, e.toOption = some plan ↔ e = .ok plan := by
        intro e
        cases e <;> simp [Except.toOption]
      simp only [asked, Asks, Option.bind_eq_some_iff, Option.ite_none_right_eq_some,
        Option.some.injEq, Prod.mk.injEq, PassPc.next.injEq, List.cons.injEq]
      constructor
      · rintro ⟨plan', hplan, ⟨hs, hn⟩, rfl, rfl, rfl⟩
        exact ⟨todo, ⟨rfl, rfl, rfl⟩, hs, (hok _).mp hplan, hn⟩
      · rintro ⟨-, ⟨rfl, rfl, -⟩, hs, hplan, hn⟩
        exact ⟨plan, (hok _).mpr hplan, ⟨hs, hn⟩, rfl, rfl, rfl⟩
  | _ => simp [asked, Asks]

/-- What can be decided of a job that is asked about can be decided of a pass. -/
theorem Pass.forall_asked {p : Pass} {Q : Snapshot × JobRow × JobPlan → Prop} :
    (∀ q ∈ p.asked, Q q) ↔ ∀ snap j plan, p.Asks snap j plan → Q (snap, j, plan) := by
  constructor
  · exact fun h snap j plan ha => h _ (asked_iff.mpr ha)
  · exact fun h q hq => h q.1 q.2.1 q.2.2 (asked_iff.mp hq)

instance (env : Env) (pool : Pool) (p : Pass) : Decidable (p.Routed env pool) :=
  decidable_of_iff (∀ q ∈ p.asked, (shouldRun env q.2.2 q.1.needs q.1.ci).toOption = some true →
    (routeFor pool q.2.2).toOption.isSome = true) <| by
  have hok : ∀ e : Except DispatchError Bool, e.toOption = some true ↔ e = .ok true := by
    intro e
    cases e <;> simp [Except.toOption]
  have hroute : ∀ e : Except DispatchError Route, e.toOption.isSome = true ↔ ∃ r, e = .ok r := by
    intro e
    cases e <;> simp [Except.toOption]
  rw [Pass.forall_asked]
  simp only [hok, hroute]
  exact Iff.rfl

instance (env : Env) (p : Pass) : Decidable (p.Local env) :=
  decidable_of_iff (∀ q ∈ p.asked, ∀ condition ∈ q.2.2.condition,
      env.evalCondition (q.2.2.scopes q.1.needs q.1.ci) condition =
        env.evalCondition (q.2.2.scopes (q.1.needs.only q.2.2.needs) q.1.ci) condition)
    Pass.forall_asked

instance (st : Stmt) (db : Db) (result : String → JobStatus × Json) (runId : String) :
    Decidable (st.Records db result runId) := match st with
  | .setJobStatus jobId s _ => decidable_of_iff
      (∀ j ∈ db.jobs.rows, j.runId = runId → j.id = jobId → result j.id = (s, j.outputs))
      ⟨fun h j hj hrun => ⟨fun _ _ hst => (by cases hst; exact h j hj hrun rfl), fun _ hst => (by cases hst)⟩,
        fun h j hj hrun hid => (h j hj hrun).1 s _ (by rw [hid])⟩
  | .setJobOutputs jobId o => decidable_of_iff
      (∀ j ∈ db.jobs.rows, j.runId = runId → j.id = jobId → (result j.id).2 = o)
      ⟨fun h j hj hrun => ⟨fun _ _ hst => (by cases hst), fun _ hst => (by cases hst; exact h j hj hrun rfl)⟩,
        fun h j hj hrun hid => (h j hj hrun).2 o (by rw [hid])⟩
  | .read | .tick _ | .createRun .. | .setRunStatus .. | .cancelRun _ | .cancelJobs _ | .claimJob ..
  | .startJob .. | .noteJobError .. | .queueJob _ | .unqueueJob _ =>
    .isTrue fun _ _ _ => ⟨fun _ _ hst => (by cases hst), fun _ hst => (by cases hst)⟩

instance (st : Stmt) (db : Db) (runId : String) : Decidable (st.Spares db runId) := match st with
  | .setJobStatus jobId s e => decidable_of_iff (∀ j ∈ db.jobs.rows, j.runId = runId → j.id ≠ jobId)
      ⟨fun h j hj hrun _ _ hst => by cases hst; exact h j hj hrun rfl,
        fun h j hj hrun hid => h j hj hrun s e (by rw [hid])⟩
  | .read | .tick _ | .createRun .. | .setRunStatus .. | .cancelRun _ | .cancelJobs _ | .claimJob ..
  | .startJob .. | .noteJobError .. | .queueJob _ | .unqueueJob _ | .setJobOutputs .. =>
    .isTrue fun _ _ _ _ _ hst => by cases hst

/-- What can be decided of a statement can be decided of the statement of an action. -/
def decStmt {env : Env} {w : World} {a : Act} (P : Stmt → Prop) [∀ st, Decidable (P st)] :
    Decidable (∀ st, stmtOf env w a = some st → P st) :=
  inferInstanceAs (Decidable (∀ st ∈ stmtOf env w a, P st))

instance (env : Env) (result : String → JobStatus × Json) (runId : String) (w : World) (a : Act) :
    Decidable (w.Undisturbed env result runId a) := match a with
  | .pass i _ => inferInstanceAs (Decidable
      (∀ p ∈ w.ctl.passes[i]?, p.runId = runId → p.Routed env w.ctl.pool))
  | .exec i o => decStmt (a := .exec i o) fun st => st.Records w.db result runId
  | .watchJob i r => decStmt (a := .watchJob i r) fun st => st.Spares w.db runId
  | .cancelJobs i => inferInstanceAs (Decidable (w.ctl.cancels[i]? ≠ some runId))
  | .tick _ | .setPool _ | .submit .. | .advance _ | .passDies _ | .deliver _ | .execDies _
  | .cancelRun _ | .cancelDies _ | .watch | .watchDies _ => .isTrue trivial

instance (env : Env) (runId : String) (w : World) (a : Act) : Decidable (w.Local env runId a) :=
  match a with
  | .pass i r => decidable_of_iff (∀ p ∈ w.ctl.passes[i]?, p.runId = runId → p.Local env)
      ⟨fun h _ _ ha => by cases ha; exact h, fun h => h i r rfl⟩
  | .tick _ | .setPool _ | .submit .. | .advance _ | .passDies _ | .deliver _ | .execDies _ | .exec ..
  | .cancelRun _ | .cancelJobs _ | .cancelDies _ | .watch | .watchJob .. | .watchDies _ =>
    .isTrue fun _ _ ha => by cases ha

end Decide

/-! ## The invariant -/

section Invariant

variable (env : Env) (result : String → JobStatus × Json) (runId : String) (db : Db)

/-- The needs of a job are over and its `if:` is true. -/
def Db.Due (j : JobRow) : Prop := ∃ plan, j.plan = .ok plan ∧ db.Over j.runId plan ∧
  db.verdict env j.runId plan = .ok true

/-- The needs of a job are over and it has its fate. -/
def Db.Settled (j : JobRow) : Prop := ∃ plan, j.plan = .ok plan ∧ db.Over j.runId plan ∧
  Fated result j (db.verdict env j.runId plan)

/-- The job is there, and due when it belongs to the run. -/
def DueId (db : Db) (jobId : String) : Prop :=
  ∃ j ∈ db.jobs.rows, j.id = jobId ∧ (j.runId = runId → db.Due env j)

/-- What is known of a job of the run. -/
structure RowOk (j : JobRow) : Prop where
  plan : ∃ plan, j.plan = .ok plan
  active : j.status = .queued ∨ j.status = .running → db.Due env j
  terminal : j.status.isTerminal = true → db.Settled env result j
  outputs : j.outputs = .obj [] ∨ (db.Due env j ∧ j.outputs = (result j.id).2)

/-- A list of the jobs of the run, with what the finished ones still have. -/
structure Db.Lists (jobs : List JobRow) : Prop where
  cells : jobs.map JobRow.cell = (db.jobsOf runId).map JobRow.cell
  rows : ∀ s ∈ jobs, s.status.isTerminal = true → ∀ j ∈ db.jobs.rows, j.id = s.id →
    j.status = s.status ∧ j.outputs = s.outputs

/-- The needs of a pass come from such a list, not older than its jobs. -/
def Db.NeedsRead (jobs : List JobRow) (needs : NeedsContext) : Prop :=
  ∃ jobs₂, needs = HeyoCi.needsContext jobs₂ ∧ db.Lists runId jobs₂ ∧
    ∀ s ∈ jobs, s.status.isTerminal = true → ∀ s₂ ∈ jobs₂, s₂.id = s.id →
      s₂.status.isTerminal = true

structure Snapshot.Known (snap : Snapshot) : Prop where
  jobs : db.Lists runId snap.jobs
  needs : db.NeedsRead runId snap.jobs snap.needs
  ci : snap.ci = ciScope (db.getRun runId)

/-- What a pass on the run knows. -/
def PassPc.Knows : PassPc → Prop
  | .jobsOf | .rollUp | .setRunStatus _ => True
  | .needsContext jobs => db.Lists runId jobs
  | .getRun jobs needs => db.Lists runId jobs ∧ db.NeedsRead runId jobs needs
  | .next snap _ | .publish snap .. | .unqueue snap .. => snap.Known runId db

end Invariant

/-- **The invariant.** -/
structure Tracked (env : Env) (result : String → JobStatus × Json) (runId : String) (w : World) :
    Prop where
  rows : ∀ j ∈ w.db.jobs.rows, j.runId = runId → RowOk env result w.db j
  ctl : w.ctl.Ok StaysTerminal (DueId env runId) w.db
  passes : ∀ p ∈ w.ctl.passes, p.runId = runId → p.pc.Knows runId w.db

/-! ## What a pass knows -/

section Knows

variable {env : Env} {pool : Pool} {db : Db} {st : Stmt} {runId : String}

theorem Db.Lists.mem {jobs : List JobRow} (h : db.Lists runId jobs) {s : JobRow} (hs : s ∈ jobs) :
    ∃ j ∈ db.jobs.rows, j.runId = runId ∧ j.cell = s.cell := by
  have hmem : s.cell ∈ (db.jobsOf runId).map JobRow.cell := h.cells ▸ List.mem_map_of_mem hs
  obtain ⟨j, hj, hcell⟩ := List.mem_map.mp hmem
  exact ⟨j, (mem_jobsOf.mp hj).1, (mem_jobsOf.mp hj).2, hcell⟩

theorem Db.lists_jobsOf : db.Lists runId (db.jobsOf runId) where
  cells := rfl
  rows s hs _ j hj hid := by
    rw [db.jobs.eq_of_key hj (mem_jobsOf.mp hs).1 hid]
    exact ⟨rfl, rfl⟩

/-- Where a pass goes on, it knows what it needs. -/
theorem Pass.Moves.knows {p : Pass} {m : PassMove} (hm : p.Moves env pool db m)
    (hrun : p.runId = runId) (hk : p.pc.Knows runId db) {pc : PassPc} (hpc : m.next = some pc) :
    pc.Knows runId db := by
  subst hrun
  cases hm with
  | fails | setRunStatus => cases hpc
  | jobsOf =>
    cases hpc
    exact Db.lists_jobsOf
  | needsContext jobs h =>
    cases hpc
    rw [h] at hk
    refine ⟨hk, _, rfl, Db.lists_jobsOf, fun s hs ht s₂ hs₂ hid => ?_⟩
    rw [(hk.rows s hs ht s₂ (Db.mem_jobsOf.mp hs₂).1 hid).1]
    exact ht
  | getRun jobs needs h =>
    cases hpc
    rw [h] at hk
    exact ⟨hk.1, hk.2, rfl⟩
  | done | rollUp =>
    cases hpc
    trivial
  | leave snap j todo h | finish snap j todo h | queue snap j todo h | lost snap j todo h
  | publish snap j route msg todo h | duplicate snap j route msg todo h
  | refused snap j route msg todo h | unqueue snap j todo h | stranded snap j todo h =>
    cases hpc
    rw [h] at hk
    exact hk

variable (hrun : db.HasRun runId) (hk : st.Keeps db runId)

include hrun hk

theorem Db.Lists.exec {jobs : List JobRow} (h : db.Lists runId jobs) :
    (db.exec st).Lists runId jobs where
  cells := by rw [h.cells, cells_exec hrun]
  rows s hs ht j' hj' hid := by
    obtain ⟨j₀, hj₀, hj₀run, hcell⟩ := h.mem hs
    have hid₀ : j₀.id = s.id := (Cell.mk.inj hcell).1
    rcases mem_exec_jobs.mp hj' with ⟨j, hj, rfl⟩ | hnew
    · rw [(st.same db.now j).id] at hid
      obtain rfl := db.jobs.eq_of_key hj hj₀ (hid.trans hid₀.symm)
      obtain ⟨hs', ho'⟩ := h.rows s hs ht j hj hid
      obtain ⟨hs₂, ho₂⟩ := hk j hj hj₀run (by rw [hs', ht])
      exact ⟨hs₂.trans hs', ho₂.trans ho'⟩
    · have hfresh := (inserted_spec hnew).2.2.1
      rw [hid, ← hid₀, Table.find_of_mem _ hj₀] at hfresh
      cases hfresh

theorem Db.NeedsRead.exec {jobs : List JobRow} {needs : NeedsContext}
    (h : db.NeedsRead runId jobs needs) : (db.exec st).NeedsRead runId jobs needs := by
  obtain ⟨jobs₂, hneeds, hlist, hlater⟩ := h
  exact ⟨jobs₂, hneeds, hlist.exec hrun hk, hlater⟩

theorem PassPc.Knows.exec {pc : PassPc} (h : pc.Knows runId db) : pc.Knows runId (db.exec st) := by
  cases pc with
  | jobsOf | rollUp | setRunStatus => trivial
  | needsContext jobs => exact Db.Lists.exec hrun hk h
  | getRun jobs needs => exact ⟨h.1.exec hrun hk, h.2.exec hrun hk⟩
  | next snap | publish snap | unqueue snap =>
    exact ⟨h.jobs.exec hrun hk, h.needs.exec hrun hk, by rw [h.ci, Db.ciScope_exec hrun]⟩

omit hk

theorem Db.Over.exec (hst : st.SetsFinal) {plan : JobPlan} (h : db.Over runId plan) :
    (db.exec st).Over runId plan := by
  intro n hn c' hc' hcr hcb
  rcases mem_exec_jobs.mp hc' with ⟨c, hc, rfl⟩ | hnew
  · rw [(st.same db.now c).runId] at hcr
    rw [(st.same db.now c).baseId] at hcb
    exact Stmt.terminal_row hst (h n hn c hc hcr hcb)
  · exact absurd hcr (hrun.ne_of_inserted hnew)

end Knows

/-! ## What a statement says about the job it writes -/

/-- A pass finishes a job whose plan cannot be read, whose `if:` is false or fails, or that has no
queue. -/
theorem jobDecision_finish_cases {env : Env} {pool : Pool} {snap : Snapshot} {j : JobRow}
    {s : JobStatus} {e : Option String} (h : jobDecision env pool snap j = .finish s e) :
    j.status = .pending ∧ ((∃ e', j.plan = .error e') ∨ ∃ plan, j.plan = .ok plan ∧
      needsDone snap.jobs plan = true ∧
      ((shouldRun env plan snap.needs snap.ci = .ok false ∧ s = .skipped) ∨
        (∃ e', shouldRun env plan snap.needs snap.ci = .error e' ∧ s = .failure) ∨
        (shouldRun env plan snap.needs snap.ci = .ok true ∧ ∃ e', routeFor pool plan = .error e'))) := by
  unfold jobDecision at h
  split_ifs at h with hp
  refine ⟨not_not.mp hp, ?_⟩
  cases hplan : j.plan with
  | error e' => exact Or.inl ⟨e', rfl⟩
  | ok plan =>
    rw [hplan] at h
    simp only at h
    split_ifs at h with hn
    refine Or.inr ⟨plan, rfl, by simpa using hn, ?_⟩
    cases hr : shouldRun env plan snap.needs snap.ci with
    | error e' =>
      rw [hr] at h
      cases h
      exact Or.inr (Or.inl ⟨e', rfl, rfl⟩)
    | ok b =>
      rw [hr] at h
      cases b with
      | false =>
        cases h
        exact Or.inl ⟨rfl, rfl⟩
      | true =>
        refine Or.inr (Or.inr ⟨rfl, ?_⟩)
        cases hroute : routeFor pool plan with
        | error e' => exact ⟨e', rfl⟩
        | ok route =>
          rw [hroute] at h
          cases h

/-- A pass is on a run that exists. -/
theorem Pass.Ok.hasRun {K : StatusRel} {Good : Db → String → Prop} {db : Db} {p : Pass}
    (h : p.Ok K Good db) : db.HasRun p.runId := by
  obtain ⟨runId, pc⟩ := p
  cases pc with
  | jobsOf | rollUp | setRunStatus => exact h
  | needsContext => exact h.run
  | getRun => exact h.1.run
  | next => exact h.covers.run
  | publish | unqueue => exact h.1.covers.run

/-- A job a pass has still to look at belongs to its run. -/
theorem Ordered.todo_row {w : World} (ho : Ordered w) {p : Pass} (hp : p ∈ w.ctl.passes)
    {snap : Snapshot} {s : JobRow} {todo : List JobRow} (hpc : p.pc = .next snap (s :: todo))
    {j : JobRow} (hj : j ∈ w.db.jobs.rows) (hid : j.id = s.id) : s.Same j ∧ j.runId = p.runId := by
  have hok := ho.ctl.passes p hp
  rw [Pass.Ok, hpc] at hok
  obtain ⟨hrun, j₀, hj₀, hsame, -⟩ := hok.covers.old s (hok.todo List.mem_cons_self)
  obtain rfl := w.db.jobs.eq_of_key hj₀ hj (hsame.id.trans hid.symm)
  exact ⟨hsame, hsame.runId.trans hrun⟩

/-- **What a pass asks is answered by the verdict.** -/
theorem Tracked.asks {env : Env} {result : String → JobStatus × Json} {runId : String} {w : World}
    (hw : Tracked env result runId w) (ho : Ordered w) {p : Pass} (hp : p ∈ w.ctl.passes)
    (hrun : p.runId = runId) (hl : p.Local env) {snap : Snapshot} {s : JobRow} {plan : JobPlan}
    (ha : p.Asks snap s plan) {j : JobRow} (hj : j ∈ w.db.jobs.rows) (hid : j.id = s.id) :
    j.plan = .ok plan ∧ w.db.Over runId plan ∧
      shouldRun env plan snap.needs snap.ci = w.db.verdict env runId plan := by
  have heval := hl snap s plan ha
  obtain ⟨todo, hpc, -, hplan, hdone⟩ := ha
  obtain ⟨hsame, hjrun⟩ := ho.todo_row hp hpc hj hid
  have hok := ho.ctl.passes p hp
  have hknown := hw.passes p hp hrun
  rw [Pass.Ok, hpc] at hok
  rw [hpc] at hknown
  have hjplan : j.plan = .ok plan := hsame.plan.trans hplan
  refine ⟨hjplan, ?_, ?_⟩
  · obtain ⟨j₁, hj₁, hid₁, hready⟩ := hok.covers.ready (fun _ _ h => h)
      (hok.todo List.mem_cons_self) hplan hdone
    obtain rfl := w.db.jobs.eq_of_key hj₁ hj (hid₁.trans hid.symm)
    rw [← hrun, ← hjrun]
    exact hready plan hjplan
  · obtain ⟨jobs₂, hneeds, hlist, hlater⟩ := hknown.needs
    have hagree : Agree plan.needs jobs₂ (w.db.jobsOf runId) := by
      refine ⟨hlist.cells, fun s₂ hs₂ hn j' hj' hid' => ?_⟩
      refine hlist.rows s₂ hs₂ ?_ j' (Db.mem_jobsOf.mp hj').1 hid'
      have hmem : s₂.cell ∈ snap.jobs.map JobRow.cell := by
        rw [hknown.jobs.cells, ← hlist.cells]
        exact List.mem_map_of_mem hs₂
      obtain ⟨s₁, hs₁, hcell⟩ := List.mem_map.mp hmem
      obtain ⟨hid₁, -, hbase₁, -⟩ := Cell.mk.inj hcell
      have hterm := (baseTerminal_iff snap.jobs s₂.baseId).mp ((needsDone_iff _ _).mp hdone _ hn)
      exact hlater s₁ hs₁ (hterm.2 s₁ hs₁ hbase₁) s₂ hs₂ hid₁.symm
    rw [shouldRun_only heval, Db.verdict,
      hknown.ci, hneeds, hagree.context, Db.needsContext]

theorem Stmt.Activates.of_queueJob {jobId jobId' : String} (h : (queueJob jobId).Activates jobId') :
    jobId = jobId' := by
  rcases h with h | ⟨r, a, h⟩ | ⟨r, s, f, a, h⟩
  · exact Stmt.queueJob.inj h
  · cases h
  · cases h

/-- The outputs of a row are kept, or set by the one statement that sets them. -/
theorem Stmt.outputs_row (now : Nat) (st : Stmt) (j : JobRow) :
    ((st.onJobs now).row j).outputs = j.outputs ∨
      ∃ o, st = .setJobOutputs j.id o ∧ ((st.onJobs now).row j).outputs = o := by
  by_cases hits : (st.onJobs now).hits j = true
  · rw [Table.Update.row_of_hits hits]
    cases st with
    | setJobOutputs jobId o =>
      obtain rfl : j.id = jobId := by simpa [onJobs, Store.setJobOutputs] using hits
      exact Or.inr ⟨o, rfl, rfl⟩
    | _ => exact Or.inl rfl
  · rw [Table.Update.row_of_not_hits (by simpa using hits)]
    exact Or.inl rfl

theorem JobRow.same_status (j : JobRow) (s : JobStatus) : j.Same { j with status := s } :=
  ⟨rfl, rfl, rfl, rfl, rfl, rfl, rfl⟩

section Settled

variable {env : Env} {result : String → JobStatus × Json} {db : Db} {j j' : JobRow}

theorem Db.Settled.congr (h : db.Settled env result j) (hsame : j.Same j')
    (hs : j'.status = j.status) (ho : j'.outputs = j.outputs) : db.Settled env result j' := by
  obtain ⟨plan, hplan, hover, hfate⟩ := h
  refine ⟨plan, hsame.plan.trans hplan, by rw [hsame.runId]; exact hover, ?_⟩
  rw [hsame.runId]
  revert hfate
  cases db.verdict env j.runId plan with
  | error e => exact fun hf => ⟨hs.trans hf.1, ho.trans hf.2⟩
  | ok b =>
    cases b with
    | false => exact fun hf => ⟨hs.trans hf.1, ho.trans hf.2⟩
    | true => exact fun hf => ⟨by rw [hs, hsame.id, hf.1], by rw [ho, hsame.id, hf.2]⟩

/-- There is one fate. -/
theorem Db.Settled.unique (h : db.Settled env result j) (hsame : j.Same j')
    (h' : db.Settled env result j') : j'.status = j.status ∧ j'.outputs = j.outputs := by
  obtain ⟨plan, hplan, -, hfate⟩ := h
  obtain ⟨plan', hplan', -, hfate'⟩ := h'
  obtain rfl : plan = plan' := Except.ok.inj (hplan.symm.trans (hsame.plan.symm.trans hplan'))
  rw [hsame.runId] at hfate'
  exact hfate.unique hfate' hsame.id

theorem Db.Settled.of_due (h : db.Settled env result j) (hd : db.Due env j) :
    j.outputs = (result j.id).2 := by
  obtain ⟨plan, hplan, -, hfate⟩ := h
  obtain ⟨plan', hplan', -, hv⟩ := hd
  obtain rfl : plan = plan' := Except.ok.inj (hplan.symm.trans hplan')
  rw [hv] at hfate
  exact hfate.2

theorem Db.Due.congr (h : db.Due env j) (hsame : j.Same j') : db.Due env j' := by
  obtain ⟨plan, hplan, hover, hv⟩ := h
  refine ⟨plan, hsame.plan.trans hplan, ?_, ?_⟩
  · rw [hsame.runId]
    exact hover
  · rw [hsame.runId]
    exact hv

variable {st : Stmt} (hrun : db.HasRun j.runId) (hk : st.Keeps db j.runId) (hst : st.SetsFinal)

include hrun hk hst

theorem Db.Due.exec (h : db.Due env j) : (db.exec st).Due env j := by
  obtain ⟨plan, hplan, hover, hv⟩ := h
  exact ⟨plan, hplan, hover.exec hrun hst, by rw [verdict_exec hrun hk hover, hv]⟩

theorem Db.Settled.exec (h : db.Settled env result j) : (db.exec st).Settled env result j := by
  obtain ⟨plan, hplan, hover, hfate⟩ := h
  exact ⟨plan, hplan, hover.exec hrun hst, by rw [verdict_exec hrun hk hover]; exact hfate⟩

end Settled

section Step

variable {env : Env} {result : String → JobStatus × Json} {runId : String} {w : World} {a : Act}
  {st : Stmt} {c : Ctl}

/-- A job that is not to run has no outputs. -/
theorem RowOk.no_outputs {j : JobRow} (h : RowOk env result w.db j) {plan : JobPlan}
    (hplan : j.plan = .ok plan) (hv : w.db.verdict env j.runId plan ≠ .ok true) :
    j.outputs = .obj [] := by
  rcases h.outputs with ho | ⟨⟨plan', hplan', -, hv'⟩, -⟩
  · exact ho
  · obtain rfl : plan = plan' := Except.ok.inj (hplan.symm.trans hplan')
    exact absurd hv' hv

theorem not_cancels (h : World.Moves env w a st c) (hu : w.Undisturbed env result runId a) :
    st ≠ .cancelJobs runId := by
  intro heq
  cases h with
  | pass i p hi r m hm hr => cases hm <;> cases heq
  | exec i x hi o m hm ho => cases hm <;> cases heq
  | cancelJobs i runId' hi =>
    cases heq
    exact hu hi
  | _ => cases heq

variable (h : World.Moves env w a st c) (hst : stmtOf env w a = some st)
  (hw : Tracked env result runId w) (ho : Ordered w) (hu : w.Undisturbed env result runId a)
  (hl : w.Local env runId a) {j : JobRow} (hj : j ∈ w.db.jobs.rows) (hrun : j.runId = runId)

include h hw ho hl hj hrun

/-- **A job of the run that is queued or started is due.** -/
theorem due_of (ha : st.Activates j.id) (hp : st = .queueJob j.id → j.status = .pending) :
    w.db.Due env j := by
  cases h with
  | pass i p hi r m hm hr =>
    have hmem := List.mem_of_getElem? hi
    cases hm with
    | queue snap s todo hpc plan route hd haff =>
      have hid : s.id = j.id := ha.of_queueJob
      obtain ⟨-, hjrun⟩ := ho.todo_row hmem hpc hj hid.symm
      have hdec := decided env w.ctl.pool snap s
      rw [hd] at hdec
      cases hdec with
      | queue hpend _ hplan hn hr' hroute =>
        obtain ⟨hjplan, hover, hask⟩ := hw.asks ho hmem (hjrun.symm.trans hrun)
          (hl i r rfl p hi (hjrun.symm.trans hrun)) ⟨todo, hpc, hpend, hplan, hn⟩ hj hid.symm
        subst hrun
        exact ⟨plan, hjplan, hover, hask.symm.trans hr'⟩
    | lost snap s todo hpc plan route hd haff =>
      have hid : s.id = j.id := ha.of_queueJob
      have hpend := hp (by rw [hid])
      have : w.db.affectsJobs (.queueJob j.id) = true :=
        (w.db.jobs.affected_iff _).mpr ⟨j, hj, by simp [Stmt.onJobs, Store.queueJob, hpend]⟩
      rw [hid, this] at haff
      cases haff
    | _ => rcases ha with ha | ⟨r, a, ha⟩ | ⟨r, s, f, a, ha⟩ <;> cases ha
  | exec i x hi o m hm ho' =>
    obtain ⟨j₀, hj₀, hid, hdue⟩ := (hw.ctl.execs x (List.mem_of_getElem? hi)).good
    rw [← hm.activates ha] at hid
    obtain rfl := w.db.jobs.eq_of_key hj₀ hj hid
    exact hdue hrun
  | _ => rcases ha with ha | ⟨r, a, ha⟩ | ⟨r, s, f, a, ha⟩ <;> cases ha

include hst hu

/-- **A status that is set on a job of the run is its fate.** -/
theorem sets_of {s : JobStatus} {e : Option String} (heq : st = .setJobStatus j.id s e) :
    w.db.Settled env result { j with status := s } := by
  have hrow := hw.rows j hj hrun
  cases h with
  | pass i p hi r m hm hr =>
    have hmem := List.mem_of_getElem? hi
    cases hm with
    | finish snap s' todo hpc status e' hd =>
      obtain ⟨hid, rfl, -⟩ := Stmt.setJobStatus.inj heq
      obtain ⟨hsame, hjrun⟩ := ho.todo_row hmem hpc hj hid.symm
      have hprun := hjrun.symm.trans hrun
      obtain ⟨hpend, ⟨err, hbad⟩ | ⟨plan, hplan, hn, hcase⟩⟩ := jobDecision_finish_cases hd
      · obtain ⟨plan, hplan⟩ := hrow.plan
        rw [hsame.plan, hbad] at hplan
        cases hplan
      · have hasks : p.Asks snap s' plan := ⟨todo, hpc, hpend, hplan, hn⟩
        obtain ⟨hjplan, hover, hask⟩ := hw.asks ho hmem hprun (hl i r rfl p hi hprun) hasks hj hid.symm
        rw [hask] at hcase
        subst hrun
        refine ⟨plan, hjplan, hover, ?_⟩
        rcases hcase with ⟨hv, rfl⟩ | ⟨e', hv, rfl⟩ | ⟨hv, e', hroute⟩
        · have hout := hrow.no_outputs hjplan (by rw [hv]; simp)
          rw [hv]
          exact ⟨rfl, hout⟩
        · have hout := hrow.no_outputs hjplan (by rw [hv]; simp)
          rw [hv]
          exact ⟨rfl, hout⟩
        · obtain ⟨route, hok⟩ := hu p hi hprun snap s' plan hasks (hask.trans hv)
          rw [hroute] at hok
          cases hok
    | _ => cases heq
  | exec i x hi o m hm ho' =>
    have hrec := (hu _ hst j hj hrun).1 s e heq
    have hid : j.id = x.body.jobId := by
      cases hm with
      | giveUp | finish => exact (Stmt.setJobStatus.inj heq).1.symm
      | _ => cases heq
    obtain ⟨j₀, hj₀, hid₀, hdue⟩ := (hw.ctl.execs x (List.mem_of_getElem? hi)).good
    obtain rfl := w.db.jobs.eq_of_key hj₀ hj (hid₀.trans hid.symm)
    obtain ⟨plan, hplan, hover, hv⟩ := hdue hrun
    refine ⟨plan, hplan, hover, ?_⟩
    rw [hv]
    exact ⟨by rw [hrec], by rw [hrec]⟩
  | watchFail i x hi job todo ht r => exact absurd heq (hu _ hst j hj hrun s e)
  | _ => cases heq

omit ho in
/-- Outputs are recorded of jobs that are due, and are their result. -/
theorem outputs_of {o : Json} (heq : st = .setJobOutputs j.id o) :
    w.db.Due env j ∧ o = (result j.id).2 := by
  cases h with
  | pass i p hi r m hm hr => cases hm <;> cases heq
  | exec i x hi o' m hm ho' =>
    have hrec := (hu _ hst j hj hrun).2 o heq
    have hid : j.id = x.body.jobId := by
      cases hm with
      | outputs => exact (Stmt.setJobOutputs.inj heq).1.symm
      | _ => cases heq
    obtain ⟨j₀, hj₀, hid₀, hdue⟩ := (hw.ctl.execs x (List.mem_of_getElem? hi)).good
    obtain rfl := w.db.jobs.eq_of_key hj₀ hj (hid₀.trans hid.symm)
    exact ⟨hdue hrun, hrec.symm⟩
  | _ => cases heq

/-- **A finished job of the run keeps its status and its outputs.** -/
theorem keeps_row (ht : j.status.isTerminal = true) :
    ((st.onJobs w.db.now).row j).status = j.status ∧
      ((st.onJobs w.db.now).row j).outputs = j.outputs := by
  have hsettled := (hw.rows j hj hrun).terminal ht
  constructor
  · have hm := st.moves w.db.now j
    generalize ((st.onJobs w.db.now).row j).status = s at hm ⊢
    cases hm with
    | keep => rfl
    | queue hq | unqueue hq | claim hq | start hq | cancel hq =>
      rw [hq] at ht
      cases ht
    | set s e =>
      have hset := sets_of h hst hw ho hu hl hj hrun rfl
      exact (hsettled.unique (j.same_status s) hset).1
  · rcases st.outputs_row w.db.now j with hout | ⟨o, heq, hout⟩
    · exact hout
    · obtain ⟨hdue, rfl⟩ := outputs_of h hst hw hu hl hj hrun heq
      rw [hout, hsettled.of_due hdue]

/-- **The row of a finished job has its fate**, by what the needs were before the statement. -/
theorem settled_row (ht : ((st.onJobs w.db.now).row j).status.isTerminal = true) :
    w.db.Settled env result ((st.onJobs w.db.now).row j) := by
  have hkeeps := keeps_row h hst hw ho hu hl hj hrun
  have hsame := st.same w.db.now j
  have hout := st.outputs_row w.db.now j
  have hm := st.moves w.db.now j
  generalize hs : ((st.onJobs w.db.now).row j).status = s at hm ht
  cases hm with
  | keep =>
    obtain ⟨hs', ho'⟩ := hkeeps ht
    exact ((hw.rows j hj hrun).terminal ht).congr hsame hs' ho'
  | queue | unqueue | claim | start => cases ht
  | cancel => exact absurd (by rw [hrun]) (not_cancels h hu)
  | set s e =>
    have hset := sets_of h hst hw ho hu hl hj hrun rfl
    refine hset.congr ((j.same_status s).symm.trans hsame) hs ?_
    rcases hout with hout | ⟨o, heq, -⟩
    · exact hout
    · cases heq

omit hj hrun

theorem keeps_moves : st.Keeps w.db runId := fun _ hj hrun ht =>
  keeps_row h hst hw ho hu hl hj hrun ht

/-- What is known of the jobs of the run is known after a step. -/
theorem rowOk_moves {j' : JobRow} (hj' : j' ∈ (w.db.exec st).jobs.rows) (hrun : j'.runId = runId) :
    RowOk env result (w.db.exec st) j' := by
  have hk := keeps_moves h hst hw ho hu hl
  rcases Db.mem_exec_jobs.mp hj' with ⟨j, hj, rfl⟩ | hnew
  · have hsame := st.same w.db.now j
    rw [hsame.runId] at hrun
    have hrow := hw.rows j hj hrun
    have hhas := ho.owned j hj
    rw [← hrun] at hk
    have hdue : w.db.Due env j → (w.db.exec st).Due env ((st.onJobs w.db.now).row j) := fun hd =>
      (hd.exec hhas hk h.setsFinal).congr hsame
    refine ⟨?_, fun hact => ?_, fun ht => ?_, ?_⟩
    · rw [hsame.plan]
      exact hrow.plan
    · refine hdue ?_
      have hm := st.moves w.db.now j
      generalize ((st.onJobs w.db.now).row j).status = s at hm hact
      cases hm with
      | keep => exact hrow.active hact
      | queue hp => exact due_of h hw ho hl hj hrun (Or.inl rfl) fun _ => hp
      | claim _ r a =>
        exact due_of h hw ho hl hj hrun (Or.inr (Or.inl ⟨r, a, rfl⟩)) fun hq => by cases hq
      | start _ r s f a =>
        exact due_of h hw ho hl hj hrun (Or.inr (Or.inr ⟨r, s, f, a, rfl⟩)) fun hq => by cases hq
      | unqueue | cancel => rcases hact with hs | hs <;> cases hs
      | set s e =>
        have hfinal := h.setsFinal _ s e rfl
        rcases hact with rfl | rfl <;> cases hfinal
    · refine (settled_row h hst hw ho hu hl hj hrun ht).exec ?_ ?_ h.setsFinal
      · rw [hsame.runId]
        exact hhas
      · rw [hsame.runId]
        exact hk
    · rcases st.outputs_row w.db.now j with hout | ⟨o, heq, hout⟩
      · rw [hout, hsame.id]
        exact hrow.outputs.imp_right fun hd => ⟨hdue hd.1, hd.2⟩
      · obtain ⟨hd, rfl⟩ := outputs_of h hst hw hu hl hj hrun heq
        rw [hout, hsame.id]
        exact Or.inr ⟨hdue hd, rfl⟩
  · obtain ⟨hp, -, -, req, plan, -, job, -, heq⟩ := Db.inserted_spec hnew
    refine ⟨⟨job, by rw [heq]; rfl⟩, fun hact => ?_, fun ht => ?_, Or.inl (by rw [heq]; rfl)⟩
    · rw [hp] at hact
      rcases hact with hs | hs <;> cases hs
    · rw [hp] at ht
      cases ht

/-- **Every step keeps the invariant.** -/
theorem tracked_moves : Tracked env result runId ⟨w.db.exec st, c⟩ := by
  have hk := keeps_moves h hst hw ho hu hl
  have hgood : ∀ id, DueId env runId w.db id → DueId env runId (w.db.exec st) id := by
    rintro id ⟨j, hj, rfl, hdue⟩
    have hsame := st.same w.db.now j
    refine ⟨_, Db.mem_exec_jobs.mpr (Or.inl ⟨j, hj, rfl⟩), hsame.id, fun hrun => ?_⟩
    rw [hsame.runId] at hrun
    rw [← hrun] at hk
    exact ((hdue hrun).exec (ho.owned j hj) hk h.setsFinal).congr hsame
  refine ⟨fun j' hj' hrun => rowOk_moves h hst hw ho hu hl hj' hrun, ?_, fun p' hp' hrun => ?_⟩
  · refine hw.ctl.moves h staysTerminal_refl staysTerminal_trans h.evolves hgood ?_
    rintro p hp s ⟨-, -, -, -, -, -, haff⟩ hq
    obtain ⟨j, hj, hits⟩ := (w.db.jobs.affected_iff _).mp haff
    obtain ⟨hid, hpend⟩ : j.id = s.id ∧ j.status = .pending := by
      simpa [Stmt.onJobs, Store.queueJob] using hits
    rw [← hid] at hq ⊢
    exact hgood j.id ⟨j, hj, rfl, fun hrun =>
      due_of h hw ho hl hj hrun (Or.inl hq) fun _ => hpend⟩
  · rcases h.mem_passes hp' with hold | ⟨p, hp, m, hm, rfl, hprun, hnext⟩ | ⟨hpc, -⟩
    · have hhas := (ho.ctl.passes p' hold).hasRun
      rw [hrun] at hhas
      exact (hw.passes p' hold hrun).exec hhas hk
    · have hhas := (ho.ctl.passes p hp).hasRun
      rw [← hprun, hrun] at hhas
      have hknows := hm.knows (hprun.symm.trans hrun) (hw.passes p hp (hprun.symm.trans hrun)) hnext
      exact hknows.exec hhas hk
    · rw [hpc]
      trivial

end Step

theorem tracked_start (env : Env) (result : String → JobStatus × Json) (runId : String) (now : Nat)
    (pool : Pool) : Tracked env result runId (World.start now pool) := by
  refine ⟨?_, ⟨?_, ?_, ?_, ?_⟩, ?_⟩ <;> intro x hx <;> cases hx

end HeyoCi
