import HeyoCi.Sched.Strand

/-!
# The strategy of a matrix

`max-parallel` and `fail-fast` are parsed, planned and stored with every cell of a matrix, and
nothing reads them. So a base keeps its bound exactly as long as every cell that becomes active
finds room, and a failed cell stops the others only when there is none left to stop.

* `Db.active`, `Db.Bounds`, `Db.Bounded`: how many cells of a base are active, and the bound;
* `Stmt.HasRoom`: a cell that becomes active finds room;
* `bounded_exec_iff`: the two agree on one statement;
* **`bounded_iff`**: they agree on every run;
* `JobRow.Sibling`, `Db.FailsFast`: other cells of the base, all begun once one has failed;
* `Stmt.FailsLast`: a cell that fails leaves none to begin, **`failsFast_iff`**;
* **`failFast_stops`**: then no cell is queued or started after a failure.
-/

namespace HeyoCi

namespace Db

variable (db : Db)

/-- A queued or running cell of a base. -/
def activeIn (runId baseId : String) (j : JobRow) : Bool :=
  j.runId = runId && j.baseId = baseId && j.status.isActive

/-- How many cells of a base are queued or running. -/
def active (runId baseId : String) : Nat := db.jobs.count (activeIn runId baseId)

/-- The strategy of the base sets `max-parallel` to `k`. -/
def Bounds (runId baseId : String) (k : Nat) : Prop :=
  ∃ j ∈ db.jobs.rows, j.runId = runId ∧ j.baseId = baseId ∧
    ∃ plan, j.plan = .ok plan ∧ plan.maxParallel = some k

/-- At most `max-parallel` cells of any base are queued or running. -/
def Bounded : Prop := ∀ runId baseId k, db.Bounds runId baseId k → db.active runId baseId ≤ k

end Db

/-- A pending cell the statement makes active finds fewer than `max-parallel` active ones. -/
def Stmt.HasRoom (db : Db) (st : Stmt) : Prop :=
  ∀ j ∈ db.jobs.rows, j.status = .pending → st.Activates j.id →
    ∀ k, db.Bounds j.runId j.baseId k → db.active j.runId j.baseId < k

/-- The statement of an action makes a cell active only where there is room. -/
def World.HasRoom (env : Env) (w : World) (a : Act) : Prop :=
  ∀ st, stmtOf env w a = some st → st.HasRoom w.db

/-! ## Counting the active cells -/

section Count

variable {db : Db} {st : Stmt} {runId baseId : String}

theorem Db.activeIn_iff {j : JobRow} : Db.activeIn runId baseId j = true ↔
    j.runId = runId ∧ j.baseId = baseId ∧ j.status.isActive = true := by
  simp [activeIn, and_assoc]

/-- What is inserted is not active. -/
theorem Db.active_exec : (db.exec st).active runId baseId =
    (db.jobs.update (st.onJobs db.now)).count (activeIn runId baseId) := by
  have hnew : (db.inserted st).reverse.countP (activeIn runId baseId) = 0 := by
    refine List.countP_eq_zero.mpr fun j hj hact => ?_
    have hpending := (activeIn_iff.mp hact).2.2
    rw [(inserted_spec (List.mem_reverse.mp hj)).1] at hpending
    cases hpending
  rw [active, Table.count, rows_exec_jobs, List.countP_append, hnew, Nat.zero_add]
  rfl

/-- A row that a statement makes active was pending, and the statement queues or starts it. -/
theorem Stmt.activates_of (hst : st.SetsFinal) {now : Nat} {j : JobRow}
    (hact : ((st.onJobs now).row j).status.isActive = true) (hno : j.status.isActive = false) :
    j.status = .pending ∧ st.Activates j.id := by
  have hm := st.moves now j
  generalize ((st.onJobs now).row j).status = s at hm hact
  have hpending : j.status.isTerminal = false → j.status = .pending := by
    revert hno
    cases j.status <;> simp [JobStatus.isActive, JobStatus.isTerminal]
  cases hm with
  | keep =>
    rw [hno] at hact
    cases hact
  | queue hp => exact ⟨hp, Or.inl rfl⟩
  | claim h r a => exact ⟨hpending h, Or.inr (Or.inl ⟨r, a, rfl⟩)⟩
  | start h r s f a => exact ⟨hpending h, Or.inr (Or.inr ⟨r, s, f, a, rfl⟩)⟩
  | unqueue | cancel => cases hact
  | set s e =>
    have hfinal := hst _ s e rfl
    rw [s.isTerminal_of_isActive hact] at hfinal
    cases hfinal

/-- What queues or starts a pending row makes it active and meets no other. -/
theorem Stmt.Activates.row {jobId : String} (ha : st.Activates jobId) {now : Nat} {j : JobRow} :
    (j.id = jobId → j.status = .pending → ((st.onJobs now).row j).status.isActive = true) ∧
      (j.id ≠ jobId → (st.onJobs now).row j = j) := by
  rcases ha with rfl | ⟨r, n, rfl⟩ | ⟨r, s, f, n, rfl⟩ <;> refine ⟨fun hid hp => ?_, fun hid => ?_⟩
  all_goals first
    | (rw [Table.Update.row_of_hits
        (by simp [onJobs, Store.queueJob, Store.claimJob, Store.startJob, hid, hp,
          JobStatus.isTerminal])]
       rfl)
    | exact Table.Update.row_of_not_hits
        (by simp [onJobs, Store.queueJob, Store.claimJob, Store.startJob, hid])

theorem Db.active_exec_le (hst : st.SetsFinal)
    (hno : ∀ j ∈ db.jobs.rows, j.runId = runId → j.baseId = baseId → j.status = .pending →
      ¬ st.Activates j.id) : (db.exec st).active runId baseId ≤ db.active runId baseId := by
  rw [active_exec]
  refine Table.count_update_le fun j hj hact => ?_
  obtain ⟨hrun, hbase, hact⟩ := activeIn_iff.mp hact
  rw [(st.same db.now j).runId] at hrun
  rw [(st.same db.now j).baseId] at hbase
  refine activeIn_iff.mpr ⟨hrun, hbase, ?_⟩
  by_contra hold
  obtain ⟨hp, ha⟩ := Stmt.activates_of hst hact (by simpa using hold)
  exact hno j hj hrun hbase hp ha

theorem Db.active_exec_succ {j : JobRow} (hj : j ∈ db.jobs.rows) (hp : j.status = .pending)
    (ha : st.Activates j.id) :
    (db.exec st).active j.runId j.baseId = db.active j.runId j.baseId + 1 := by
  rw [active_exec]
  refine Table.count_update_succ hj ?_ ?_ fun j' _ hne => ?_
  · simp [activeIn, hp, JobStatus.isActive]
  · have hsame := st.same db.now j
    exact activeIn_iff.mpr ⟨hsame.runId, hsame.baseId, ha.row.1 rfl hp⟩
  · rw [ha.row.2 hne]

/-- A bound was there before, or its base has just been submitted. -/
theorem Db.Bounds.before (ho : db.Owned) {k : Nat} (h : (db.exec st).Bounds runId baseId k) :
    db.Bounds runId baseId k ∨ ∀ j ∈ db.jobs.rows, j.runId ≠ runId := by
  obtain ⟨j', hj', rfl, rfl, plan, hplan, hk⟩ := h
  rcases mem_exec_jobs.mp hj' with ⟨j, hj, rfl⟩ | hnew
  · have hsame := st.same db.now j
    refine Or.inl ⟨j, hj, hsame.runId.symm, hsame.baseId.symm, plan, ?_, hk⟩
    rw [← hsame.plan, hplan]
  · exact Or.inr fun j hj hrun => (ho j hj).ne_of_inserted hnew hrun.symm

theorem Db.Bounds.exec {k : Nat} (h : db.Bounds runId baseId k) :
    (db.exec st).Bounds runId baseId k := by
  obtain ⟨j, hj, rfl, rfl, plan, hplan, hk⟩ := h
  have hsame := st.same db.now j
  refine ⟨_, mem_exec_jobs.mpr (Or.inl ⟨j, hj, rfl⟩), hsame.runId, hsame.baseId, plan, ?_, hk⟩
  rw [hsame.plan, hplan]

/-- **A statement keeps every bound exactly when the cell it makes active finds room.** -/
theorem bounded_exec_iff (ho : db.Owned) (hst : st.SetsFinal) (hb : db.Bounded) :
    (db.exec st).Bounded ↔ st.HasRoom db := by
  constructor
  · intro h j hj hp ha k hk
    have := h j.runId j.baseId k hk.exec
    rw [Db.active_exec_succ hj hp ha] at this
    omega
  · intro h runId baseId k hk
    by_cases hno : ∀ j ∈ db.jobs.rows, j.runId = runId → j.baseId = baseId → j.status = .pending →
        ¬ st.Activates j.id
    · refine (Db.active_exec_le hst hno).trans ?_
      rcases hk.before ho with hold | hnew
      · exact hb runId baseId k hold
      · have hzero : db.active runId baseId = 0 :=
          List.countP_eq_zero.mpr fun j hj hact => hnew j hj (Db.activeIn_iff.mp hact).1
        omega
    · push Not at hno
      obtain ⟨j, hj, rfl, rfl, hp, ha⟩ := hno
      rw [Db.active_exec_succ hj hp ha]
      rcases hk.before ho with hold | hnew
      · exact h j hj hp ha k hold
      · exact absurd rfl (hnew j hj)

end Count

/-- **A run keeps every bound exactly when each cell that becomes active finds room.** -/
theorem bounded_iff (env : Env) (now : Nat) (pool : Pool) (as : List Act) :
    (machine env).Throughout (fun _ _ w' => w'.db.Bounded) (World.start now pool) as ↔
      (machine env).Throughout (fun w a _ => w.HasRoom env a) (World.start now pool) as := by
  refine Machine.throughout_inv_iff (Machine.Reachable.init ⟨now, pool, rfl⟩) ?_ ?_
  · rintro runId baseId k ⟨j, hj, -⟩
    cases hj
  · intro w a w' hreach hb hstep
    obtain ⟨st, c, hst, hm, rfl⟩ := step_cases hstep
    rw [bounded_exec_iff (ordered_reachable hreach).owned hm.setsFinal hb, World.HasRoom, hst]
    simp

/-- A matrix of two cells, of which one may run at once. -/
def matrixPlan : Plan where
  workflowPath := ".ci/build.yml"
  workflowName := none
  jobs := ["a", "b"].map fun cell => { JobPlan.plain s!"build-{cell}" [] with
    baseId := "build", mtx := [("target", .str cell)], maxParallel := some 1 }
  needs_cells := by decide

instance (db : Db) (runId baseId : String) (k : Nat) : Decidable (db.Bounds runId baseId k) :=
  decidable_of_iff (∃ j ∈ db.jobs.rows, j.runId = runId ∧ j.baseId = baseId ∧
      (j.plan.toOption.bind (·.maxParallel)) = some k) <| by
    refine exists_congr fun j => and_congr_right fun _ => and_congr_right fun _ =>
      and_congr_right fun _ => ?_
    cases j.plan <;> simp [Except.toOption]

/-- A pass until it has published the first cell. -/
def firstQueued : List Act := .submit "r" .plain matrixPlan :: List.replicate 5 (.pass 0 .ok)

/-- The next step queues a second cell where `max-parallel` is one. -/
theorem matrix_over_bound : ¬ ∀ (env : Env) (now : Nat) (pool : Pool) (as : List Act),
    (machine env).Throughout (fun _ _ w' => w'.db.Bounded) (World.start now pool) as := by
  intro h
  have hboth : ((machine .plain).run (World.start 0 .single) (firstQueued ++ [.pass 0 .ok])).map
      (fun w => decide (w.db.Bounds "r" "build" 1 ∧ w.db.active "r" "build" = 2)) = some true := by
    decide
  obtain ⟨w', hw', hd⟩ := Option.map_eq_some_iff.mp hboth
  obtain ⟨hbound, hactive⟩ := of_decide_eq_true hd
  rw [Machine.run_concat] at hw'
  obtain ⟨w, hw, hstep⟩ := Option.bind_eq_some_iff.mp hw'
  refine Machine.not_throughout hw hstep (fun hk => ?_) (h .plain 0 .single _)
  have := hk _ _ _ hbound
  omega

/-! ## `fail-fast` -/

/-- Started, or finished without. -/
def JobStatus.begun : JobStatus → Bool
  | pending | queued => false
  | _ => true

/-- Another cell of the same base. -/
def JobRow.Sibling (c f : JobRow) : Prop := c.runId = f.runId ∧ c.baseId = f.baseId ∧ c.id ≠ f.id

/-- The strategy of the cell has `fail-fast`. -/
def JobRow.FailFast (j : JobRow) : Prop := ∃ plan, j.plan = .ok plan ∧ plan.failFast = true

/-- Every other cell of the base has begun. -/
def Db.Last (db : Db) (f : JobRow) : Prop :=
  ∀ c ∈ db.jobs.rows, c.Sibling f → c.status.begun = true

/-- Beside a failed cell of a base with `fail-fast` no cell is left to begin. -/
def Db.FailsFast (db : Db) : Prop :=
  ∀ f ∈ db.jobs.rows, f.FailFast → f.status = .failure → db.Last f

/-- A cell with `fail-fast` fails when every other cell of its base has begun. -/
def Stmt.FailsLast (db : Db) (st : Stmt) : Prop := ∀ jobId e, st = .setJobStatus jobId .failure e →
  ∀ f ∈ db.jobs.rows, f.id = jobId → f.FailFast → db.Last f

/-- The statement of an action fails a cell only as the last one. -/
def World.FailsLast (env : Env) (w : World) (a : Act) : Prop :=
  ∀ st, stmtOf env w a = some st → st.FailsLast w.db

/-- A step from `w` to `w'` neither queues a cell that is pending nor starts one whose row was `c`
and had not begun. -/
def World.Stops (w w' : World) (c : JobRow) : Prop :=
  (w.status c.id = some .pending → w'.status c.id ≠ some .queued) ∧
    (c.status.begun = false → w'.status c.id ≠ some .running)

section FailFast

variable {db : Db} {st : Stmt}

theorem Stmt.begun_row (hst : st.SetsFinal) {now : Nat} {j : JobRow} (h : j.status.begun = true) :
    ((st.onJobs now).row j).status.begun = true := by
  have hm := st.moves now j
  generalize ((st.onJobs now).row j).status = s at hm ⊢
  cases hm with
  | keep => exact h
  | queue hp | unqueue hp =>
    rw [hp] at h
    cases h
  | claim | start | cancel => rfl
  | set s e =>
    have hfinal := hst _ s e rfl
    revert hfinal
    cases s <;> simp [JobStatus.isTerminal, JobStatus.begun]

/-- A row that has failed after a statement had failed before, or the statement failed it. -/
theorem Stmt.fails_of {now : Nat} {j : JobRow} (h : ((st.onJobs now).row j).status = .failure) :
    j.status = .failure ∨ ∃ e, st = .setJobStatus j.id .failure e := by
  have hm := st.moves now j
  generalize ((st.onJobs now).row j).status = s at hm h
  cases hm with
  | keep => exact Or.inl h
  | set s e =>
    subst h
    exact Or.inr ⟨e, rfl⟩
  | _ => cases h

theorem JobRow.Sibling.same {c f c' f' : JobRow} (hc : c.Same c') (hf : f.Same f') :
    c'.Sibling f' ↔ c.Sibling f := by
  rw [Sibling, Sibling, hc.runId, hf.runId, hc.baseId, hf.baseId, hc.id, hf.id]

theorem JobRow.FailFast.same {j j' : JobRow} (h : j.Same j') : j'.FailFast ↔ j.FailFast := by
  rw [FailFast, FailFast, h.plan]

/-- **Nothing is left to begin beside a failed cell exactly when the failing one was the last.** -/
theorem failsFast_exec_iff (ho : db.Owned) (hst : st.SetsFinal) (hf : db.FailsFast) :
    (db.exec st).FailsFast ↔ st.FailsLast db := by
  constructor
  · rintro h jobId e rfl f hmem rfl hff c hc hsib
    let st := Stmt.setJobStatus f.id .failure e
    have hrow : ∀ j ∈ db.jobs.rows, (st.onJobs db.now).row j ∈ (db.exec st).jobs.rows :=
      fun j hj => Db.mem_exec_jobs.mpr (Or.inl ⟨j, hj, rfl⟩)
    have hfail : ((st.onJobs db.now).row f).status = .failure := by
      rw [Table.Update.row_of_hits (by simp [st, Stmt.onJobs, Store.setJobStatus])]
      rfl
    have hkeep : (st.onJobs db.now).row c = c :=
      Table.Update.row_of_not_hits (by simpa [st, Stmt.onJobs, Store.setJobStatus] using hsib.2.2)
    have hff' := (JobRow.FailFast.same (st.same db.now f)).mpr hff
    have hsib' := (JobRow.Sibling.same (st.same db.now c) (st.same db.now f)).mpr hsib
    have := h _ (hrow f hmem) hff' hfail _ (hrow c hc) hsib'
    rwa [hkeep] at this
  · intro h f' hf' hff hfail c' hc' hsib
    rcases Db.mem_exec_jobs.mp hf' with ⟨f, hmem, rfl⟩ | hnew
    · rcases Db.mem_exec_jobs.mp hc' with ⟨c, hc, rfl⟩ | hnew
      · refine Stmt.begun_row hst ?_
        rw [JobRow.FailFast.same (st.same db.now f)] at hff
        rw [JobRow.Sibling.same (st.same db.now c) (st.same db.now f)] at hsib
        rcases Stmt.fails_of hfail with hold | ⟨e, hset⟩
        · exact hf f hmem hff hold c hc hsib
        · exact h f.id e hset f hmem rfl hff c hc hsib
      · have hrun : c'.runId = f.runId := hsib.1.trans (st.same db.now f).runId
        exact absurd hrun ((ho f hmem).ne_of_inserted hnew)
    · rw [(Db.inserted_spec hnew).1] at hfail
      cases hfail

end FailFast

/-- A cell that has begun in `w` has begun ever after. -/
theorem begun_reach {env : Env} {ok : World → Act → Prop} {w w' : World}
    (h : (machine env).Reach ok w w') {c : JobRow} (hc : c ∈ w.db.jobs.rows)
    (hb : c.status.begun = true) : ∃ s, w'.status c.id = some s ∧ s.begun = true := by
  have key : ∀ t a t', (∃ s, t.status c.id = some s ∧ s.begun = true) → ok t a →
      (machine env).step t a = some t' → ∃ s, t'.status c.id = some s ∧ s.begun = true := by
    rintro t a t' ⟨s, ht, hs⟩ - hstep
    obtain ⟨st, ctl, -, hm, rfl⟩ := step_cases hstep
    obtain ⟨j, hj, rfl⟩ := Option.map_eq_some_iff.mp ht
    refine ⟨((st.onJobs t.db.now).row j).status, ?_, Stmt.begun_row hm.setsFinal hs⟩
    rw [World.status, Db.find_exec_job hj, Option.map_some]
  refine Machine.Reach.inv (fun t => ∃ s, t.status c.id = some s ∧ s.begun = true) key h
    ⟨c.status, ?_, hb⟩
  rw [World.status, Table.find_of_mem _ hc, Option.map_some]

/-- **A run leaves no cell to begin beside a failed one exactly when each failing cell was the
last.** -/
theorem failsFast_iff (env : Env) (now : Nat) (pool : Pool) (as : List Act) :
    (machine env).Throughout (fun _ _ w' => w'.db.FailsFast) (World.start now pool) as ↔
      (machine env).Throughout (fun w a _ => w.FailsLast env a) (World.start now pool) as := by
  refine Machine.throughout_inv_iff (Machine.Reachable.init ⟨now, pool, rfl⟩) ?_ ?_
  · intro f hf
    cases hf
  · intro w a w' hreach hf hstep
    obtain ⟨st, c, hst, hm, rfl⟩ := step_cases hstep
    rw [failsFast_exec_iff (ordered_reachable hreach).owned hm.setsFinal hf, World.FailsLast, hst]
    simp

/-- **Where each cell with `fail-fast` that fails is the last of its base, no step after the failure
queues or starts a cell of the base.** -/
theorem failFast_stops {env : Env} {now : Nat} {pool : Pool} {as : List Act} {w w₁ : World}
    (has : (machine env).Throughout (fun w a _ => w.FailsLast env a) (World.start now pool) as)
    (hw : (machine env).run (World.start now pool) as = some w)
    (hr : (machine env).Reach Machine.anyStep w w₁) {f c : JobRow} (hf : f ∈ w.db.jobs.rows)
    (hff : f.FailFast) (hfail : f.status = .failure) (hc : c ∈ w.db.jobs.rows)
    (hsib : c.Sibling f) : ∀ a w₂, (machine env).step w₁ a = some w₂ → w₁.Stops w₂ c := by
  have hfast : w.db.FailsFast :=
    ((failsFast_iff env now pool as).mpr has).last (fun f hf => by cases hf) hw
  have hbegun := hfast f hf hff hfail c hc hsib
  obtain ⟨s, hstatus, hb⟩ := begun_reach hr hc hbegun
  refine fun a w₂ _ => ⟨fun hpending => ?_, fun hno => ?_⟩
  · rw [hpending] at hstatus
    cases hstatus
    cases hb
  · rw [hbegun] at hno
    cases hno

section Decide

instance (j : JobRow) : Decidable j.FailFast :=
  decidable_of_iff ((j.plan.toOption.map (·.failFast)) = some true) <| by
    unfold JobRow.FailFast
    cases j.plan <;> simp [Except.toOption]

instance (c f : JobRow) : Decidable (c.Sibling f) :=
  inferInstanceAs (Decidable (c.runId = f.runId ∧ c.baseId = f.baseId ∧ c.id ≠ f.id))

instance (db : Db) (f : JobRow) : Decidable (db.Last f) :=
  inferInstanceAs (Decidable (∀ c ∈ db.jobs.rows, c.Sibling f → c.status.begun = true))

instance (db : Db) (st : Stmt) : Decidable (st.FailsLast db) := match st with
  | .setJobStatus jobId .failure _ => decidable_of_iff
      (∀ f ∈ db.jobs.rows, f.id = jobId → f.FailFast → db.Last f)
      ⟨fun h _ _ hst => by cases hst; exact h, fun h => h _ _ rfl⟩
  | .setJobStatus _ .pending _ | .setJobStatus _ .queued _ | .setJobStatus _ .running _
  | .setJobStatus _ .success _ | .setJobStatus _ .skipped _ | .setJobStatus _ .cancelled _
  | .read | .tick _ | .createRun .. | .setRunStatus .. | .cancelRun _ | .cancelJobs _ | .claimJob ..
  | .startJob .. | .noteJobError .. | .queueJob _ | .unqueueJob _ | .setJobOutputs .. =>
    .isTrue fun _ _ hst => by cases hst

instance (env : Env) (w : World) (a : Act) : Decidable (w.FailsLast env a) :=
  match h : stmtOf env w a with
  | none => .isTrue fun _ hst => by rw [h] at hst; cases hst
  | some st => decidable_of_iff (st.FailsLast w.db)
      ⟨fun hl _ hst => by cases h.symm.trans hst; exact hl, fun hl => hl st h⟩

end Decide

/-- Both cells start, then the first one fails. -/
def bothStarted : List Act :=
  .submit "r" .plain matrixPlan ::
    (schedule 2 2 ++ takeJob 0 ++ [.deliver 1, .exec 1 .ok, .exec 1 .ok] ++
      [.exec 0 (.fail (.stepFailed "exit 1")), .exec 0 .ok])

theorem failFast_stops_started : ∃ w : World, ∃ f ∈ w.db.jobs.rows, f.status = .failure ∧
    ∃ c ∈ w.db.jobs.rows, c.Sibling f ∧ c.status = .running ∧
      ∀ a w₂, (machine .plain).step w a = some w₂ → w.Stops w₂ c := by
  have hfailed : ((machine .plain).run (World.start 0 .single) bothStarted).map
      (fun w => decide (∃ f ∈ w.db.jobs.rows, f.status = .failure ∧ f.FailFast ∧
        ∃ c ∈ w.db.jobs.rows, c.Sibling f ∧ c.status = .running)) = some true := by decide
  obtain ⟨w, hw, hd⟩ := Option.map_eq_some_iff.mp hfailed
  obtain ⟨f, hf, hfail, hff, c, hc, hsib, hrunning⟩ := of_decide_eq_true hd
  exact ⟨w, f, hf, hfail, c, hc, hsib, hrunning,
    failFast_stops (by decide) hw Machine.Reach.refl hf hff hfail hc hsib⟩

/-- The publish of the second cell fails and is rolled back; the first one starts and fails. -/
def secondPending : List Act :=
  .submit "r" .plain matrixPlan ::
    (List.replicate 6 (.pass 0 .ok) ++ [.pass 0 .fail] ++ List.replicate 4 (.pass 0 .ok) ++ takeJob 0 ++
      [.exec 0 (.fail (.stepFailed "exit 1")), .exec 0 .ok])

/-- The pass that the failed execution starts, until it comes to the second cell. -/
def passAfter : List Act := .exec 0 .ok :: List.replicate 4 (.pass 0 .ok)

/-- No pass is under way when the first cell fails, and the next one queues the second cell. -/
theorem failed_matrix_goes_on : ¬ ∀ (env : Env) (now : Nat) (pool : Pool) (as : List Act)
    (w w₁ : World), (machine env).run (World.start now pool) as = some w → w.ctl.passes.isEmpty →
    (machine env).Reach Machine.anyStep w w₁ → ∀ f ∈ w.db.jobs.rows, f.FailFast →
    f.status = .failure → ∀ c ∈ w.db.jobs.rows, c.Sibling f →
    ∀ a w₂, (machine env).step w₁ a = some w₂ → w₁.Stops w₂ c := by
  intro h
  have hqueued : (((machine .plain).run (World.start 0 .single) secondPending).bind fun w =>
      ((machine .plain).run w passAfter).bind fun w₁ =>
        ((machine .plain).step w₁ (.pass 0 .ok)).map fun w₂ =>
          decide (w.ctl.passes.isEmpty ∧ ∃ f ∈ w.db.jobs.rows, f.FailFast ∧ f.status = .failure ∧
            ∃ c ∈ w.db.jobs.rows, c.Sibling f ∧ w₁.status c.id = some .pending ∧
              w₂.status c.id = some .queued)) = some true := by decide
  obtain ⟨w, hw, h₁⟩ := Option.bind_eq_some_iff.mp hqueued
  obtain ⟨w₁, hw₁, h₂⟩ := Option.bind_eq_some_iff.mp h₁
  obtain ⟨w₂, hw₂, hd⟩ := Option.map_eq_some_iff.mp h₂
  obtain ⟨hnone, f, hf, hff, hfail, c, hc, hsib, hpending, hq⟩ := of_decide_eq_true hd
  have hstops := h .plain 0 .single _ w w₁ hw hnone (Machine.reach_of_run hw₁) f hf hff hfail
    c hc hsib _ w₂ hw₂
  exact hstops.1 hpending hq

end HeyoCi
