import HeyoCi.Sched.Snapshot

/-!
# No job before its needs

* `JobRow.Ready`: every cell of every need is finished;
* `Db.Covers.ready`: what passes the gate of a snapshot is ready;
* `Ordered`: the invariant;
* `activates_ready`: a statement that queues or starts a job meets a ready one;
* **`ordered_reachable`**, **`needs_terminal`**: it holds in every reachable state.
-/

namespace HeyoCi

/-- Every cell of every need of a job is finished. -/
def JobRow.Ready (db : Db) (j : JobRow) : Prop := ∀ plan, j.plan = .ok plan → ∀ n ∈ plan.needs,
  ∀ c ∈ db.jobs.rows, c.runId = j.runId → c.baseId = n → c.status.isTerminal = true

/-- The job with this id is there and ready. -/
def Db.ReadyId (db : Db) (jobId : String) : Prop := ∃ j ∈ db.jobs.rows, j.id = jobId ∧ j.Ready db

section Ready

variable {K : StatusRel} (hK : ∀ s s', K s s' → s.isTerminal = true → s'.isTerminal = true)
  {db db' : Db}

include hK

/-- **What passes the gate of a snapshot is ready.** -/
theorem Db.Covers.ready {runId : String} {jobs : List JobRow} (h : db.Covers K runId jobs)
    {s : JobRow} (hs : s ∈ jobs) {plan : JobPlan} (hplan : s.plan = .ok plan)
    (hn : needsDone jobs plan = true) : db.ReadyId s.id := by
  obtain ⟨hrun, j, hj, hsame, -⟩ := h.old s hs
  refine ⟨j, hj, hsame.id, fun plan' hplan' n hmem c hc hcr hcb => ?_⟩
  obtain rfl : plan = plan' := by
    rw [hsame.plan, hplan] at hplan'
    exact Except.ok.inj hplan'
  obtain ⟨s', hs', hsame', hk⟩ := h.all c hc (by rw [hcr, hsame.runId, hrun])
  have hbase := (baseTerminal_iff jobs n).mp ((needsDone_iff jobs plan).mp hn n hmem)
  exact hK _ _ hk (hbase.2 s' hs' (by rw [← hsame'.baseId, hcb]))

theorem JobRow.Ready.evolves (h : db.Evolves K db') {j j' : JobRow} (hr : db.HasRun j.runId)
    (hj : j.Ready db) (hs : j.Same j') : j'.Ready db' := by
  intro plan hplan n hn c' hc' hcr hcb
  rw [hs.plan] at hplan
  rw [hs.runId] at hcr
  obtain ⟨c, hc, hsame, hk⟩ := h.old hr hc' hcr
  exact hK _ _ hk
    (hj plan hplan n hn c hc (by rw [← hsame.runId, hcr]) (by rw [← hsame.baseId, hcb]))

theorem Db.ReadyId.evolves (h : db.Evolves K db') (ho : db.Owned) {jobId : String}
    (hj : db.ReadyId jobId) : db'.ReadyId jobId := by
  obtain ⟨j, hj, rfl, hready⟩ := hj
  obtain ⟨j', hj', hsame, -⟩ := h.job j hj
  exact ⟨j', hj', hsame.id, hready.evolves hK h (ho j hj) hsame⟩

end Ready

/-! ## The invariant -/

theorem staysTerminal_refl (s : JobStatus) : StaysTerminal s s := id

theorem staysTerminal_trans (a b c : JobStatus) (h : StaysTerminal a b) (h' : StaysTerminal b c) :
    StaysTerminal a c := fun ht => h' (h ht)

/-- **The invariant.** Jobs have runs, what is queued or running is ready, and so is what the actors
are about to queue or start. -/
structure Ordered (w : World) : Prop where
  owned : w.db.Owned
  rows : ∀ j ∈ w.db.jobs.rows, j.status = .queued ∨ j.status = .running → j.Ready w.db
  ctl : w.ctl.Ok StaysTerminal Db.ReadyId w.db

/-- The statement queues or starts a job. -/
def Stmt.Activates (st : Stmt) (jobId : String) : Prop :=
  st = .queueJob jobId ∨ (∃ r a, st = .claimJob jobId r a) ∨ ∃ r s f a, st = .startJob jobId r s f a

/-- An execution only starts its own job. -/
theorem Exec.Moves.activates {db : Db} {x : Exec} {m : ExecMove} (hm : x.Moves db m)
    {jobId : String} (ha : m.stmt.Activates jobId) : jobId = x.body.jobId := by
  cases hm with
  | claimed | claimLost =>
    rcases ha with ha | ⟨r, a, ha⟩ | ⟨r, s, f, a, ha⟩
    · cases ha
    · cases ha
      rfl
    · cases ha
  | started | startLost =>
    rcases ha with ha | ⟨r, a, ha⟩ | ⟨r, s, f, a, ha⟩
    · cases ha
    · cases ha
    · cases ha
      rfl
  | _ => rcases ha with ha | ⟨r, a, ha⟩ | ⟨r, s, f, a, ha⟩ <;> cases ha

section Step

variable {env : Env} {w : World} {a : Act} {st : Stmt} {c : Ctl}

/-- A pass that queues a job has a snapshot that shows it to be ready. -/
theorem Pass.Queues.ready {p : Pass} {Good : Db → String → Prop} (hp : p.Ok StaysTerminal Good w.db)
    {j : JobRow} (hq : p.Queues env w.ctl.pool w.db j) : w.db.ReadyId j.id := by
  obtain ⟨snap, todo, plan, route, hpc, hd, -⟩ := hq
  rw [Pass.Ok, hpc] at hp
  obtain ⟨hplan, hn, -⟩ := jobDecision_queue hd
  exact hp.covers.ready (fun _ _ h => h) (hp.todo List.mem_cons_self) hplan hn

/-- **A statement that queues or starts a job meets a ready one.** -/
theorem activates_ready (h : World.Moves env w a st c) (hw : Ordered w) {j : JobRow}
    (hj : j ∈ w.db.jobs.rows) (ha : st.Activates j.id)
    (hp : st = .queueJob j.id → j.status = .pending) : j.Ready w.db := by
  have hid : w.db.ReadyId j.id := by
    rcases ha with ha | ha
    · obtain ⟨p, hpass, s, hs, hq⟩ := h.queues hj (hp ha) ha
      rw [← hs]
      exact hq.ready (hw.ctl.passes p hpass)
    · cases h with
      | pass i p hi r m hm hr =>
        cases hm <;> rcases ha with ⟨r, a, ha⟩ | ⟨r, s, f, a, ha⟩ <;> cases ha
      | exec i x hi o m hm ho =>
        rw [hm.activates (Or.inr ha)]
        exact (hw.ctl.execs x (List.mem_of_getElem? hi)).good
      | _ => rcases ha with ⟨r, a, ha⟩ | ⟨r, s, f, a, ha⟩ <;> cases ha
  obtain ⟨j₀, hj₀, hid, hready⟩ := hid
  rwa [w.db.jobs.eq_of_key hj₀ hj hid] at hready

theorem rows_ready (h : World.Moves env w a st c) (hw : Ordered w) :
    ∀ j ∈ (w.db.exec st).jobs.rows, j.status = .queued ∨ j.status = .running →
      j.Ready (w.db.exec st) := by
  intro j' hj' hstatus
  rcases Db.mem_exec_jobs.mp hj' with ⟨j, hj, rfl⟩ | hnew
  · refine JobRow.Ready.evolves (fun _ _ h => h) h.evolves (hw.owned j hj) ?_ (st.same w.db.now j)
    have hm := st.moves w.db.now j
    generalize ((st.onJobs w.db.now).row j).status = s at hm hstatus
    cases hm with
    | keep => exact hw.rows j hj hstatus
    | queue hp => exact activates_ready h hw hj (Or.inl rfl) fun _ => hp
    | claim _ r a => exact activates_ready h hw hj (Or.inr (Or.inl ⟨r, a, rfl⟩)) fun hq => by cases hq
    | start _ r s f a =>
      exact activates_ready h hw hj (Or.inr (Or.inr ⟨r, s, f, a, rfl⟩)) fun hq => by cases hq
    | unqueue | cancel => rcases hstatus with hs | hs <;> cases hs
    | set s e =>
      have := h.setsFinal _ s e rfl
      rcases hstatus with rfl | rfl <;> cases this
  · rw [(Db.inserted_spec hnew).1] at hstatus
    rcases hstatus with hs | hs <;> cases hs

theorem ordered_moves (h : World.Moves env w a st c) (hw : Ordered w) :
    Ordered ⟨w.db.exec st, c⟩ := by
  have hgood : ∀ id, w.db.ReadyId id → (w.db.exec st).ReadyId id := fun id hid =>
    hid.evolves (fun _ _ h => h) h.evolves hw.owned
  refine ⟨Db.owned_exec hw.owned, rows_ready h hw, ?_⟩
  exact hw.ctl.moves h staysTerminal_refl staysTerminal_trans h.evolves hgood
    fun p hp j hq _ => hgood _ (hq.ready (hw.ctl.passes p hp))

end Step

theorem ordered_start (now : Nat) (pool : Pool) : Ordered (World.start now pool) := by
  refine ⟨?_, ?_, ?_, ?_, ?_, ?_⟩ <;> intro x hx <;> cases hx

/-- **The invariant holds in every reachable state.** -/
theorem ordered_reachable {env : Env} {ok : World → Act → Prop} {w : World}
    (h : (machine env).Reachable ok w) : Ordered w := by
  refine Machine.Reachable.inv Ordered ?_ ?_ h
  · rintro w ⟨now, pool, rfl⟩
    exact ordered_start now pool
  · intro w a w' _ hw _ hstep
    obtain ⟨st, c, -, hm, rfl⟩ := step_cases hstep
    exact ordered_moves hm hw

/-- **A job that is queued or running has only finished needs.** -/
theorem needs_terminal (env : Env) {w : World} (h : (machine env).Reachable Machine.anyStep w)
    {j : JobRow} (hj : j ∈ w.db.jobs.rows) (hs : j.status = .queued ∨ j.status = .running)
    {plan : JobPlan} (hplan : j.plan = .ok plan) {n : String} (hn : n ∈ plan.needs) {c : JobRow}
    (hc : c ∈ w.db.jobs.rows) (hrun : c.runId = j.runId) (hbase : c.baseId = n) :
    c.status.isTerminal = true :=
  (ordered_reachable h).rows j hj hs plan hplan n hn c hc hrun hbase

/-- `build`, and a `deploy` that needs it. -/
def deployPlan : Plan :=
  ⟨".ci/build.yml", none, [.plain "build" [], .plain "deploy" ["build"]], by decide⟩

/-- A run of the two, until `deploy` is queued. -/
def deployQueued : List Act :=
  .submit "r" .plain deployPlan :: (schedule 2 1 ++ takeJob 0 ++ succeedJob ++ schedule 2 1)

theorem needs_terminal_deploy : ∃ w : World, w.status "r.deploy" = some .queued ∧
    ∀ c ∈ w.db.jobs.rows, c.runId = "r" → c.baseId = "build" → c.status.isTerminal = true := by
  have hdeploy : ((machine .plain).run (World.start 0 .single) deployQueued).bind
      (·.node "r.deploy") = some ⟨.queued, "r", "deploy", ["build"]⟩ := by decide
  obtain ⟨w, hw, hnode⟩ := Option.bind_eq_some_iff.mp hdeploy
  obtain ⟨j, hj, plan, hid, hplan, heq⟩ := World.node_spec hnode
  obtain ⟨hs, hr, -, hneeds⟩ := Node.mk.inj heq
  refine ⟨w, ?_, fun c hc hcr hcb => ?_⟩
  · rw [World.status, ← hid, Table.find_of_mem _ hj, Option.map_some, ← hs]
  · exact needs_terminal .plain (Machine.reachable_of_run ⟨0, .single, rfl⟩ hw) hj (Or.inl hs.symm) hplan
      (by rw [← hneeds]; exact List.mem_singleton_self _) hc (hcr.trans hr) hcb

end HeyoCi
