import HeyoCi.Sched.Final

/-!
# What a pass knows from its snapshot

A pass decides from a snapshot, and everything may move before its statement runs. What cannot move
is the set of jobs of its run and, as far as `StatusRel` says, the status of a finished job. This is
kept for any such relation `K`, and for any property `Good` of the job ids on the queue.

* `Db.HasJob`, `Db.Owned`: jobs that exist in a run, and that every job's run exists;
* `Db.Seen`, `Db.Covers`: rows read earlier, and lists of rows that know all jobs of their run;
* `Pass.Ok`, `JobMessage.Ok`, `Ctl.Ok`: what the actors know;
* **`Ctl.Ok.moves`**: every step keeps it.
-/

namespace HeyoCi

namespace Db

variable (K : StatusRel) (db : Db)

/-- Every job has a run. -/
def Owned : Prop := ∀ j ∈ db.jobs.rows, db.HasRun j.runId

def HasJob (runId jobId : String) : Prop := ∃ j ∈ db.jobs.rows, j.id = jobId ∧ j.runId = runId

/-- The row was read as `s` before. -/
def Seen (s j : JobRow) : Prop := s.Same j ∧ K s.status j.status

/-- `jobs` was read from the jobs of a run. -/
structure Covers (runId : String) (jobs : List JobRow) : Prop where
  run : db.HasRun runId
  old : ∀ s ∈ jobs, s.runId = runId ∧ ∃ j ∈ db.jobs.rows, Seen K s j
  all : ∀ j ∈ db.jobs.rows, j.runId = runId → ∃ s ∈ jobs, Seen K s j

variable {K db}

theorem covers_jobsOf (hK : ∀ s, K s s) {runId : String} (h : db.HasRun runId) :
    db.Covers K runId (db.jobsOf runId) where
  run := h
  old s hs := ⟨(mem_jobsOf.mp hs).2, s, (mem_jobsOf.mp hs).1, JobRow.Same.refl s, hK _⟩
  all j hj hr := ⟨j, mem_jobsOf.mpr ⟨hj, hr⟩, JobRow.Same.refl j, hK _⟩

theorem owned_exec {st : Stmt} (ho : db.Owned) : (db.exec st).Owned := by
  intro j' hj'
  rcases mem_exec_jobs.mp hj' with ⟨j, hj, rfl⟩ | hnew
  · obtain ⟨r, hr, hid⟩ := ho j hj
    rw [(st.same db.now j).runId]
    exact ⟨_, exec_runs_of_mem hr, ((st.onRuns db.now).key_row r).trans hid⟩
  · exact hasRun_of_inserted hnew

section Evolves

variable {db' : Db} (h : db.Evolves K db')

include h

theorem HasRun.evolves {runId : String} (hr : db.HasRun runId) : db'.HasRun runId := by
  obtain ⟨r, hr, rfl⟩ := hr
  exact h.run r hr

theorem HasJob.evolves {runId jobId : String} (hj : db.HasJob runId jobId) :
    db'.HasJob runId jobId := by
  obtain ⟨j, hj, rfl, rfl⟩ := hj
  obtain ⟨j', hj', hsame, -⟩ := h.job j hj
  exact ⟨j', hj', hsame.id, hsame.runId⟩

/-- A job of an existing run was there before. -/
theorem Evolves.old {runId : String} (hr : db.HasRun runId) {j' : JobRow} (hj' : j' ∈ db'.jobs.rows)
    (hrun : j'.runId = runId) : ∃ j ∈ db.jobs.rows, Seen K j j' := by
  rcases h.back j' hj' with hold | ⟨-, hnew⟩
  · exact hold
  · rw [hrun] at hnew
    exact absurd hnew hr.taken

theorem Covers.evolves (hK : ∀ a b c, K a b → K b c → K a c) {runId : String} {jobs : List JobRow}
    (hc : db.Covers K runId jobs) : db'.Covers K runId jobs where
  run := hc.run.evolves h
  old s hs := by
    obtain ⟨hr, j, hj, hseen⟩ := hc.old s hs
    obtain ⟨j', hj', hsame, hk⟩ := h.job j hj
    exact ⟨hr, j', hj', hseen.1.trans hsame, hK _ _ _ hseen.2 hk⟩
  all j' hj' hr := by
    obtain ⟨j, hj, hsame, hk⟩ := h.old hc.run hj' hr
    obtain ⟨s, hs, hseen⟩ := hc.all j hj (by rw [← hsame.runId, hr])
    exact ⟨s, hs, hseen.1.trans hsame, hK _ _ _ hseen.2 hk⟩

end Evolves

end Db

/-! ## The actors -/

section Ok

variable (K : StatusRel) (Good : Db → String → Prop) (db : Db)

/-- A message names a good job of a run that exists. -/
structure JobMessage.Ok (msg : JobMessage) : Prop where
  run : db.HasRun msg.runId
  job : db.HasJob msg.runId msg.jobId
  good : Good db msg.jobId

/-- The needs a pass has read are those of a list read after `jobs`. -/
def NeedsOk (runId : String) (jobs : List JobRow) (needs : NeedsContext) : Prop :=
  ∃ jobs₂, needs = needsContext jobs₂ ∧ db.Covers K runId jobs₂ ∧
    ∀ s ∈ jobs, ∃ s₂ ∈ jobs₂, Db.Seen K s s₂

/-- A snapshot covers its run, and what is left to do comes from it. -/
structure SnapshotOk (runId : String) (snap : Snapshot) (todo : List JobRow) : Prop where
  covers : db.Covers K runId snap.jobs
  needs : NeedsOk K db runId snap.jobs snap.needs
  todo : todo ⊆ snap.jobs

/-- What a pass has read covers its run, and the job it publishes is good. -/
def Pass.Ok (p : Pass) : Prop :=
  match p.pc with
  | .jobsOf | .rollUp | .setRunStatus _ => db.HasRun p.runId
  | .needsContext jobs => db.Covers K p.runId jobs
  | .getRun jobs needs => db.Covers K p.runId jobs ∧ NeedsOk K db p.runId jobs needs
  | .next snap todo => SnapshotOk K db p.runId snap todo
  | .publish snap j _ msg todo => SnapshotOk K db p.runId snap todo ∧ msg.Ok Good db ∧
    msg.runId = p.runId ∧ msg.jobId = j.id
  | .unqueue snap j todo => SnapshotOk K db p.runId snap todo ∧ db.HasJob p.runId j.id

/-- What all actors know. -/
structure Ctl.Ok (c : Ctl) : Prop where
  passes : ∀ p ∈ c.passes, p.Ok K Good db
  msgs : ∀ m ∈ c.msgs, m.body.Ok Good db
  execs : ∀ x ∈ c.execs, x.body.Ok Good db
  watches : ∀ x ∈ c.watches, ∀ j ∈ x.todo, db.HasRun j.runId ∧ db.HasJob j.runId j.id

end Ok

section Evolves

variable {K : StatusRel} {Good : Db → String → Prop} {db db' : Db} (h : db.Evolves K db')
  (hK : ∀ a b c, K a b → K b c → K a c) (hgood : ∀ id, Good db id → Good db' id)

include h

theorem NeedsOk.evolves (hK : ∀ a b c, K a b → K b c → K a c) {runId : String} {jobs : List JobRow}
    {needs : NeedsContext} (hn : NeedsOk K db runId jobs needs) : NeedsOk K db' runId jobs needs := by
  obtain ⟨jobs₂, hneeds, hc, hlater⟩ := hn
  exact ⟨jobs₂, hneeds, hc.evolves h hK, hlater⟩

theorem SnapshotOk.evolves (hK : ∀ a b c, K a b → K b c → K a c) {runId : String} {snap : Snapshot}
    {todo : List JobRow} (hs : SnapshotOk K db runId snap todo) : SnapshotOk K db' runId snap todo :=
  ⟨hs.covers.evolves h hK, hs.needs.evolves h hK, hs.todo⟩

theorem JobMessage.Ok.evolves (hgood : ∀ id, Good db id → Good db' id) {msg : JobMessage}
    (hm : msg.Ok Good db) : msg.Ok Good db' :=
  ⟨hm.run.evolves h, hm.job.evolves h, hgood _ hm.good⟩

include hK hgood

theorem Pass.Ok.evolves {p : Pass} (hp : p.Ok K Good db) : p.Ok K Good db' := by
  obtain ⟨runId, pc⟩ := p
  cases pc with
  | jobsOf | rollUp | setRunStatus => exact Db.HasRun.evolves h hp
  | needsContext => exact Db.Covers.evolves h hK hp
  | getRun => exact ⟨Db.Covers.evolves h hK hp.1, NeedsOk.evolves h hK hp.2⟩
  | next => exact SnapshotOk.evolves h hK hp
  | unqueue => exact ⟨SnapshotOk.evolves h hK hp.1, hp.2.evolves h⟩
  | publish => exact ⟨SnapshotOk.evolves h hK hp.1, hp.2.1.evolves h hgood, hp.2.2⟩

end Evolves

/-! ## Every step keeps it -/

theorem subset_of_cons_subset {j : JobRow} {todo jobs : List JobRow} (h : j :: todo ⊆ jobs) :
    todo ⊆ jobs := fun _ hx => h (List.mem_cons_of_mem j hx)

theorem SnapshotOk.tail {K : StatusRel} {db : Db} {runId : String} {snap : Snapshot} {j : JobRow}
    {todo : List JobRow} (h : SnapshotOk K db runId snap (j :: todo)) :
    SnapshotOk K db runId snap todo := ⟨h.covers, h.needs, subset_of_cons_subset h.todo⟩

/-- What is left to do is there. -/
theorem SnapshotOk.hasJob {K : StatusRel} {db : Db} {runId : String} {snap : Snapshot}
    {todo : List JobRow} (h : SnapshotOk K db runId snap todo) {s : JobRow} (hs : s ∈ todo) :
    db.HasJob runId s.id := by
  obtain ⟨hrun, j, hj, hsame, -⟩ := h.covers.old s (h.todo hs)
  exact ⟨j, hj, hsame.id, hsame.runId.trans hrun⟩

section Moves

variable {K : StatusRel} {Good : Db → String → Prop} {env : Env} {pool : Pool} {db db' : Db}
  {p : Pass} {m : PassMove}

/-- A pass that goes on to publish a job has just queued it. -/
def Pass.Queues (env : Env) (pool : Pool) (db : Db) (p : Pass) (j : JobRow) : Prop :=
  ∃ snap todo plan route, p.pc = .next snap (j :: todo) ∧
    jobDecision env pool snap j = .queue plan route ∧ db.affectsJobs (.queueJob j.id) = true

/-- What a pass publishes is good. -/
theorem Pass.Moves.sent (hm : p.Moves env pool db m) (hp : p.Ok K Good db) {route : Route}
    {msg : JobMessage} (hs : m.send = some (route, msg)) : msg.Ok Good db := by
  cases hm with
  | publish snap j route' msg' todo h =>
    cases hs
    rw [Pass.Ok, h] at hp
    exact hp.2.1
  | refused snap j route' msg' todo h send hsend =>
    rcases hsend with rfl | rfl
    · cases hs
    · cases hs
      rw [Pass.Ok, h] at hp
      exact hp.2.1
  | _ => cases hs

/-- Where a pass goes on, it knows what it needs. -/
theorem Pass.Moves.ok (hm : p.Moves env pool db m) (hp : p.Ok K Good db) (hrefl : ∀ s, K s s)
    (h : db.Evolves K db') (hK : ∀ a b c, K a b → K b c → K a c)
    (hgood : ∀ id, Good db id → Good db' id)
    (hq : ∀ j, p.Queues env pool db j → m.stmt = .queueJob j.id → Good db' j.id)
    {pc : PassPc} (hpc : m.next = some pc) : Pass.Ok K Good db' ⟨p.runId, pc⟩ := by
  have hev : Pass.Ok K Good db ⟨p.runId, pc⟩ → Pass.Ok K Good db' ⟨p.runId, pc⟩ :=
    Pass.Ok.evolves h hK hgood
  cases hm with
  | fails | setRunStatus => cases hpc
  | jobsOf hp' =>
    cases hpc
    rw [Pass.Ok, hp'] at hp
    exact hev (Db.covers_jobsOf hrefl hp)
  | needsContext jobs hp' =>
    cases hpc
    rw [Pass.Ok, hp'] at hp
    refine hev ⟨hp, _, rfl, Db.covers_jobsOf hrefl hp.run, fun s hs => ?_⟩
    obtain ⟨hr, j, hj, hseen⟩ := hp.old s hs
    exact ⟨j, Db.mem_jobsOf.mpr ⟨hj, hseen.1.runId.trans hr⟩, hseen⟩
  | getRun jobs needs hp' =>
    cases hpc
    rw [Pass.Ok, hp'] at hp
    exact hev ⟨hp.1, hp.2, List.Subset.refl _⟩
  | leave snap j todo hp' | finish snap j todo hp' | lost snap j todo hp' =>
    cases hpc
    rw [Pass.Ok, hp'] at hp
    exact hev hp.tail
  | queue snap j todo hp' plan route hd ha =>
    cases hpc
    rw [Pass.Ok, hp'] at hp
    have hjob := (hp.hasJob List.mem_cons_self).evolves h
    exact ⟨hp.tail.evolves h hK, ⟨hp.covers.run.evolves h, hjob,
      hq j ⟨snap, todo, plan, route, hp', hd, ha⟩ rfl⟩, rfl, rfl⟩
  | done snap hp' =>
    cases hpc
    rw [Pass.Ok, hp'] at hp
    exact hev hp.covers.run
  | publish snap j route msg todo hp' | duplicate snap j route msg todo hp' =>
    cases hpc
    rw [Pass.Ok, hp'] at hp
    exact hev hp.1
  | refused snap j route msg todo hp' =>
    cases hpc
    rw [Pass.Ok, hp'] at hp
    obtain ⟨hs, hmsg, hrun, hid⟩ := hp
    refine hev ⟨hs, ?_⟩
    rw [← hrun, ← hid]
    exact hmsg.job
  | unqueue snap j todo hp' | stranded snap j todo hp' =>
    cases hpc
    rw [Pass.Ok, hp'] at hp
    exact hev hp.1
  | rollUp hp' =>
    cases hpc
    rw [Pass.Ok, hp'] at hp
    exact hev hp

end Moves

/-- Who queues a job. -/
theorem World.Moves.queues {env : Env} {w : World} {a : Act} {st : Stmt} {c : Ctl}
    (h : World.Moves env w a st c) {j : JobRow} (hj : j ∈ w.db.jobs.rows) (hp : j.status = .pending)
    (hst : st = .queueJob j.id) :
    ∃ p ∈ w.ctl.passes, ∃ s, s.id = j.id ∧ p.Queues env w.ctl.pool w.db s := by
  have haff : w.db.affectsJobs (.queueJob j.id) = true := by
    refine (w.db.jobs.affected_iff _).mpr ⟨j, hj, ?_⟩
    simp [Stmt.onJobs, Store.queueJob, hp]
  cases h with
  | pass i p hi r m hm hr =>
    cases hm with
    | queue snap s todo hpc plan route hd ha =>
      exact ⟨p, List.mem_of_getElem? hi, s, Stmt.queueJob.inj hst, snap, todo, plan, route, hpc, hd, ha⟩
    | lost snap s todo hpc plan route hd ha =>
      have hid : s.id = j.id := Stmt.queueJob.inj hst
      rw [hid, haff] at ha
      cases ha
    | _ => cases hst
  | exec i x hi o m hm ho => cases hm <;> cases hst
  | _ => cases hst

section Step

variable {K : StatusRel} {Good : Db → String → Prop} {env : Env} {w : World} {a : Act} {st : Stmt}
  {c : Ctl}

/-- A run a pass is started on exists. -/
theorem Ctl.Ok.hasRun (hw : w.ctl.Ok K Good w.db) (hev : w.db.Evolves K (w.db.exec st))
    {runId : String} (h : w.Starts runId st) : (w.db.exec st).HasRun runId := by
  cases h with
  | submit req plan hs => exact Db.hasRun_createRun hs
  | advance r hr => exact (Db.hasRun_of_getRun hr).evolves hev
  | settled x hx hid =>
    rw [← hid]
    exact (hw.execs x hx).run.evolves hev
  | failed x hx j hj hid =>
    rw [← hid]
    exact (hw.watches x hx j hj).1.evolves hev

/-- **Every step keeps what the actors know**, when the jobs it queues are good. -/
theorem Ctl.Ok.moves (hw : w.ctl.Ok K Good w.db) (h : World.Moves env w a st c)
    (hrefl : ∀ s, K s s) (hK : ∀ a b c, K a b → K b c → K a c)
    (hev : w.db.Evolves K (w.db.exec st)) (hgood : ∀ id, Good w.db id → Good (w.db.exec st) id)
    (hq : ∀ p ∈ w.ctl.passes, ∀ j, p.Queues env w.ctl.pool w.db j → st = .queueJob j.id →
      Good (w.db.exec st) j.id) : c.Ok K Good (w.db.exec st) := by
  refine ⟨?_, ?_, ?_, ?_⟩
  · intro p' hp'
    rcases h.mem_passes hp' with hold | ⟨p, hp, m, hm, hst, hrun, hnext⟩ | ⟨hpc, hstarts⟩
    · exact (hw.passes p' hold).evolves hev hK hgood
    · have hok := hm.ok (hw.passes p hp) hrefl hev hK hgood
        (fun j hj hq' => hq p hp j hj (hst.trans hq')) hnext
      rwa [← hrun] at hok
    · rw [Pass.Ok, hpc]
      exact hw.hasRun hev hstarts
  · intro m' hm'
    rcases h.mem_msgs hm' with ⟨m, hm, hbody, -⟩ | ⟨p, hp, m, hm, -, hsend, -⟩
    · rw [hbody]
      exact (hw.msgs m hm).evolves hev hgood
    · exact (hm.sent (hw.passes p hp) hsend).evolves hev hgood
  · intro x' hx'
    rcases h.mem_execs hx' with hold | ⟨x, hx, m, -, -, -, heq⟩ | ⟨m, hm, -, -, heq⟩
    · exact (hw.execs x' hold).evolves hev hgood
    · rw [heq]
      exact (hw.execs x hx).evolves hev hgood
    · rw [heq]
      exact (hw.msgs m hm).evolves hev hgood
  · intro x' hx' j hj
    rcases h.mem_watches hx' hj with ⟨x, hx, hj⟩ | ⟨hrow, hwait⟩
    · exact ⟨(hw.watches x hx j hj).1.evolves hev, (hw.watches x hx j hj).2.evolves hev⟩
    · refine ⟨Db.HasRun.evolves hev ?_, Db.HasJob.evolves hev ⟨j, hrow, rfl, rfl⟩⟩
      simp only [Db.waiting, Bool.and_eq_true, Option.any_eq_true] at hwait
      obtain ⟨-, r, hr, -⟩ := hwait
      exact Db.hasRun_of_getRun hr

end Step

end HeyoCi
