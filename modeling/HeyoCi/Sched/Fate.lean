import HeyoCi.Sched.Order

/-!
# What becomes of a job, by its needs alone

The `needs` context of a pass has an entry for every base of the run, whether a job declares it or
not. A verdict is an `if:` evaluated on the declared entries only, and with it and a fixed outcome
for each job that is run, the fate of a job follows from the fates of its needs.

* `NeedsContext.only`: the entries of some bases; **`only_needsContext`**: they come from the cells of
  these bases;
* `JobRow.cell`, `Agree`: rows of the same jobs, alike in the cells of some bases;
* `Db.verdict`, `Fated`: what the declared needs say about a job, and the fate that follows;
* `JobPlan.scopes`, `shouldRun_only`: when an `if:` is decided by the declared needs;
* `Db.jobsOf_exec`, `Db.ciScope_exec`: what a statement leaves of a run;
* **`Db.verdict_exec`**: a verdict stands while the finished jobs do.
-/

namespace HeyoCi

/-! ## The entries of some bases -/

namespace NeedsContext

/-- The entries of these bases. -/
def only (names : List String) (needs : NeedsContext) : NeedsContext :=
  needs.filter fun e => e.1 ∈ names

theorem only_cons (names : List String) (p : String × NeedsEntry) (needs : NeedsContext) :
    only names (p :: needs) = if p.1 ∈ names then p :: needs.only names else needs.only names := by
  simp [only, List.filter_cons]

theorem only_add (names : List String) (needs : NeedsContext) (j : JobRow) :
    (needs.add j).only names =
      if j.baseId ∈ names then (needs.only names).add j else needs.only names := by
  induction needs with
  | nil => simp [add, only, List.filter_cons]
  | cons p rest ih =>
    obtain ⟨n, e⟩ := p
    by_cases hn : n = j.baseId
    · subst hn
      rw [add, if_pos rfl, only_cons, only_cons]
      by_cases hm : j.baseId ∈ names
      · simp [hm, add]
      · simp [hm]
    · rw [add, if_neg hn, only_cons, only_cons, ih]
      by_cases hm : n ∈ names
      · rw [if_pos hm, if_pos hm, add, if_neg hn]
        split_ifs <;> rfl
      · rw [if_neg hm, if_neg hm]

theorem result_only {names : List String} {n : String} (hn : n ∈ names) (needs : NeedsContext) :
    (needs.only names).result n = needs.result n := by
  induction needs with
  | nil => rfl
  | cons p rest ih =>
    obtain ⟨m, e⟩ := p
    rw [result, result] at ih ⊢
    rw [only_cons, List.lookup_cons]
    by_cases hm : m ∈ names
    · rw [if_pos hm, List.lookup_cons]
      split
      · rfl
      · exact ih
    · have hne : (n == m) = false := by
        refine beq_eq_false_iff_ne.mpr fun heq => hm ?_
        rw [← heq]
        exact hn
      rw [if_neg hm, hne]
      exact ih

theorem add_congr {j j' : JobRow} (hb : j.baseId = j'.baseId) (hs : j.status = j'.status)
    (ho : j.outputs = j'.outputs) (needs : NeedsContext) : needs.add j = needs.add j' := by
  have haddTo : ∀ e, addTo e j = addTo e j' := fun e => by rw [addTo, addTo, hs, ho]
  induction needs with
  | nil => rw [add, add, haddTo, hb]
  | cons p rest ih => rw [add, add, haddTo, hb, ih]

end NeedsContext

/-- **The entries of some bases come from the cells of these bases.** -/
theorem only_needsContext (names : List String) (jobs : List JobRow) :
    (needsContext jobs).only names = needsContext (jobs.filter fun j => j.baseId ∈ names) := by
  have key : ∀ needs needs' : NeedsContext, needs.only names = needs' →
      (jobs.foldl (fun needs j => needs.add j) needs).only names =
        (jobs.filter fun j => j.baseId ∈ names).foldl (fun needs j => needs.add j) needs' := by
    induction jobs with
    | nil => exact fun _ _ h => h
    | cons j jobs ih =>
      intro needs needs' h
      rw [List.foldl_cons, List.filter_cons]
      split_ifs with hm
      · exact ih _ _ (by rw [NeedsContext.only_add, if_pos (by simpa using hm), h])
      · exact ih _ _ (by rw [NeedsContext.only_add, if_neg (by simpa using hm), h])
  exact key [] [] rfl

/-- What no statement assigns, and does not depend on the time of the submit. -/
structure Cell where
  id : String
  jobKey : String
  baseId : String
  plan : Except String JobPlan

def JobRow.cell (j : JobRow) : Cell := ⟨j.id, j.jobKey, j.baseId, j.plan⟩

/-- Two lists of rows of the same jobs, alike in the cells of some bases. -/
structure Agree (names : List String) (jobs jobs' : List JobRow) : Prop where
  cells : jobs.map JobRow.cell = jobs'.map JobRow.cell
  rows : ∀ j ∈ jobs, j.baseId ∈ names → ∀ j' ∈ jobs', j'.id = j.id →
    j'.status = j.status ∧ j'.outputs = j.outputs

/-- **Alike in the cells of some bases, two lists give these the same entries.** -/
theorem Agree.context {names : List String} {jobs jobs' : List JobRow} (h : Agree names jobs jobs') :
    (needsContext jobs).only names = (needsContext jobs').only names := by
  rw [only_needsContext, only_needsContext, needsContext, needsContext]
  generalize ([] : NeedsContext) = needs
  induction jobs generalizing jobs' needs with
  | nil =>
    cases jobs' with
    | nil => rfl
    | cons j' jobs' => cases h.cells
  | cons j jobs ih =>
    cases jobs' with
    | nil => cases h.cells
    | cons j' jobs' =>
      obtain ⟨hcell, hcells⟩ := List.cons.inj h.cells
      obtain ⟨hid, -, hbase, -⟩ := Cell.mk.inj hcell
      have hrest : Agree names jobs jobs' := ⟨hcells, fun k hk hn k' hk' =>
        h.rows k (List.mem_cons_of_mem j hk) hn k' (List.mem_cons_of_mem j' hk')⟩
      rw [List.filter_cons, List.filter_cons, ← hbase]
      split_ifs with hm
      · obtain ⟨hs, ho⟩ := h.rows j List.mem_cons_self (by simpa using hm) j' List.mem_cons_self
          hid.symm
        rw [List.foldl_cons, List.foldl_cons, NeedsContext.add_congr hbase hs.symm ho.symm]
        exact ih hrest _
      · exact ih hrest _

/-! ## The fate of a job -/

/-- The `if:` of a job on the entries of its own needs. -/
def Db.verdict (env : Env) (db : Db) (runId : String) (plan : JobPlan) : Except DispatchError Bool :=
  shouldRun env plan ((db.needsContext runId).only plan.needs) (ciScope (db.getRun runId))

/-- What becomes of a job: what it gives when it is run, or why it is not. -/
def Fated (result : String → JobStatus × Json) (j : JobRow) : Except DispatchError Bool → Prop
  | .ok true => j.status = (result j.id).1 ∧ j.outputs = (result j.id).2
  | .ok false => j.status = .skipped ∧ j.outputs = .obj []
  | .error _ => j.status = .failure ∧ j.outputs = .obj []

theorem Fated.unique {result : String → JobStatus × Json} {v : Except DispatchError Bool}
    {j j' : JobRow} (h : Fated result j v) (h' : Fated result j' v) (hid : j'.id = j.id) :
    j'.status = j.status ∧ j'.outputs = j.outputs := by
  match v, h, h' with
  | .ok true, h, h' =>
    rw [h.1, h.2, h'.1, h'.2, hid]
    exact ⟨rfl, rfl⟩
  | .ok false, h, h' | .error _, h, h' =>
    rw [h.1, h.2, h'.1, h'.2]
    exact ⟨rfl, rfl⟩

/-- The scopes an `if:` is evaluated against. -/
def JobPlan.scopes (plan : JobPlan) (needs : NeedsContext) (ci : Json) : Json.Obj :=
  let ctx := Json.Obj.insert "needs" needs.toJson plan.baseContext
  let ctx := Json.Obj.insert "ci" ci ctx
  let status := if anyFailed plan needs then "failure" else "success"
  Json.Obj.insert "__status" (.str status) ctx

/-- An `if:` that says the same without the undeclared entries is decided by the declared ones. -/
theorem shouldRun_only {env : Env} {plan : JobPlan} {needs : NeedsContext} {ci : Json}
    (h : ∀ condition, plan.condition = some condition →
      env.evalCondition (plan.scopes needs ci) condition =
        env.evalCondition (plan.scopes (needs.only plan.needs) ci) condition) :
    shouldRun env plan needs ci = shouldRun env plan (needs.only plan.needs) ci := by
  cases hc : plan.condition with
  | none =>
    have hfailed : anyFailed plan (needs.only plan.needs) = anyFailed plan needs := by
      rw [anyFailed, anyFailed, Bool.eq_iff_iff, List.any_eq_true, List.any_eq_true]
      refine exists_congr fun n => and_congr_right fun hn => ?_
      rw [needsFailed, needsFailed, NeedsContext.result_only hn]
    rw [shouldRun_of_no_condition hc, shouldRun_of_no_condition hc, hfailed]
  | some condition =>
    have heval := h condition hc
    simp only [JobPlan.scopes] at heval
    simp only [shouldRun, hc, heval]

/-! ## What a statement leaves of a run -/

/-- The finished jobs of a run keep their status and their outputs. -/
def Stmt.Keeps (st : Stmt) (db : Db) (runId : String) : Prop :=
  ∀ j ∈ db.jobs.rows, j.runId = runId → j.status.isTerminal = true →
    ((st.onJobs db.now).row j).status = j.status ∧ ((st.onJobs db.now).row j).outputs = j.outputs

/-- Every cell of every need of a plan is finished. -/
def Db.Over (db : Db) (runId : String) (plan : JobPlan) : Prop := ∀ n ∈ plan.needs,
  ∀ c ∈ db.jobs.rows, c.runId = runId → c.baseId = n → c.status.isTerminal = true

section Exec

variable {db : Db} {st : Stmt} {runId : String}

/-- **The jobs of a run that exists are updated where they stand.** -/
theorem Db.jobsOf_exec (h : db.HasRun runId) :
    (db.exec st).jobsOf runId = (db.jobsOf runId).map (st.onJobs db.now).row := by
  have hnew : (db.inserted st).reverse.filter (fun j => j.runId = runId) = [] := by
    refine List.filter_eq_nil_iff.mpr fun j hj hrun => ?_
    exact h.ne_of_inserted (List.mem_reverse.mp hj) (of_decide_eq_true hrun)
  have hold : (fun j : JobRow => decide (j.runId = runId)) ∘ (st.onJobs db.now).row =
      fun j => decide (j.runId = runId) := by
    funext j
    rw [Function.comp_apply, (st.same db.now j).runId]
  rw [jobsOf, rows_exec_jobs, List.filter_append, hnew, List.nil_append, List.filter_map, hold]
  refine (List.map_insertionSort _ _ _ _ fun j _ j' _ => ?_).symm
  rw [JobRow.Before, JobRow.Before, (st.same db.now j).createdAt, (st.same db.now j').createdAt,
    (st.same db.now j).jobKey, (st.same db.now j').jobKey]

theorem Db.cells_exec (h : db.HasRun runId) :
    ((db.exec st).jobsOf runId).map JobRow.cell = (db.jobsOf runId).map JobRow.cell := by
  rw [jobsOf_exec h, List.map_map]
  refine List.map_congr_left fun j _ => ?_
  have hsame := st.same db.now j
  rw [Function.comp_apply, JobRow.cell, JobRow.cell, hsame.id, hsame.jobKey, hsame.baseId, hsame.plan]

/-- What expressions see of a run does not change. -/
theorem Db.ciScope_exec (h : db.HasRun runId) :
    ciScope ((db.exec st).getRun runId) = ciScope (db.getRun runId) := by
  obtain ⟨r, hr, rfl⟩ := h
  have hrow : (db.exec st).getRun r.id = some ((st.onRuns db.now).row r) :=
    (Table.find_eq_some _).mpr ⟨exec_runs_of_mem hr, (st.onRuns db.now).key_row r⟩
  rw [hrow, getRun, Table.find_of_mem _ hr, Table.Update.row]
  split_ifs
  · cases st <;> rfl
  · rfl

/-- **A verdict stands** while the finished jobs of the run keep what they have. -/
theorem Db.verdict_exec {env : Env} {plan : JobPlan} (h : db.HasRun runId)
    (hk : st.Keeps db runId) (ho : db.Over runId plan) :
    (db.exec st).verdict env runId plan = db.verdict env runId plan := by
  have hagree : Agree plan.needs ((db.exec st).jobsOf runId) (db.jobsOf runId) := by
    refine ⟨cells_exec h, fun j' hj' hn j hj hid => ?_⟩
    rw [jobsOf_exec h] at hj'
    obtain ⟨j₀, hj₀, rfl⟩ := List.mem_map.mp hj'
    obtain ⟨hj₀, hrun⟩ := mem_jobsOf.mp hj₀
    have hsame := st.same db.now j₀
    obtain rfl := db.jobs.eq_of_key (mem_jobsOf.mp hj).1 hj₀ (hid.trans hsame.id)
    rw [hsame.baseId] at hn
    obtain ⟨hs, hout⟩ := hk j hj₀ hrun (ho _ hn j hj₀ hrun rfl)
    exact ⟨hs.symm, hout.symm⟩
  rw [verdict, verdict, ciScope_exec h, needsContext, needsContext, hagree.context]

end Exec

/-! ## The jobs of a submitted plan -/

/-- The jobs of a run of this plan, in the order in which they are read. -/
def Plan.cells (plan : Plan) (runId : String) : List Cell :=
  ((plan.jobs.map fun job => (job.row 0 runId).cell).reverse).insertionSort
    fun c d => c.jobKey ≤ d.jobKey

/-- **A run has the jobs of its plan, whenever it was submitted.** -/
theorem Db.cells_createRun {db : Db} (ho : db.Owned) {runId : String} {req : RunRequest} {plan : Plan}
    (h : (db.createRun runId req plan).isSome = true) :
    ((db.exec (.createRun runId req plan)).jobsOf runId).map JobRow.cell = plan.cells runId ∧
      ciScope ((db.exec (.createRun runId req plan)).getRun runId) =
        ciScope (some (req.row 0 runId plan)) := by
  obtain ⟨db', hc⟩ := Option.isSome_iff_exists.mp h
  obtain ⟨runs, jobs, hr, hj, rfl⟩ := createRun_eq_some.mp hc
  have hfresh : db.runs.find runId = none := (Table.insert_eq_some.mp hr).1
  have hold : db.jobs.rows.filter (fun j => j.runId = runId) = [] := by
    refine List.filter_eq_nil_iff.mpr fun j hj hrun => ?_
    obtain ⟨r, hr, hid⟩ := ho j hj
    rw [← of_decide_eq_true hrun, ← hid, Table.find_of_mem _ hr] at hfresh
    cases hfresh
  have hnew : ((plan.jobs.map fun job => job.row db.now runId).reverse).filter
      (fun j => j.runId = runId) = (plan.jobs.map fun job => job.row db.now runId).reverse := by
    refine List.filter_eq_self.mpr fun j hj => ?_
    obtain ⟨job, -, rfl⟩ := List.mem_map.mp (List.mem_reverse.mp hj)
    exact decide_eq_true rfl
  have hexec : db.exec (.createRun runId req plan) = { db with runs := runs, jobs := jobs } := by
    rw [exec, hc, Option.getD_some]
  rw [hexec]
  constructor
  · rw [jobsOf, Table.rows_insertAll hj, List.filter_append, hold, hnew, List.append_nil, Plan.cells]
    rw [List.map_insertionSort _ (fun c d : Cell => c.jobKey ≤ d.jobKey), List.map_reverse, List.map_map]
    · rfl
    · intro j hj j' hj'
      obtain ⟨job, -, rfl⟩ := List.mem_map.mp (List.mem_reverse.mp hj)
      obtain ⟨job', -, rfl⟩ := List.mem_map.mp (List.mem_reverse.mp hj')
      simp [JobRow.Before, JobPlan.row, JobRow.cell]
  · have hfind : runs.find runId = some (req.row db.now runId plan) := by
      refine runs.find_eq_some.mpr ⟨?_, rfl⟩
      rw [(Table.insert_eq_some.mp hr).2]
      exact List.mem_cons_self
    rw [getRun, hfind]
    rfl

end HeyoCi
