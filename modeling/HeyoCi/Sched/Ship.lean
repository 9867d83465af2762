import HeyoCi.Sched.Order
import Mathlib.Logic.Relation

/-!
# What a broken build lets through

A job without an `if:` is skipped when one of its needs failed or was cancelled. The need itself may
be skipped for that reason, and a skipped need holds nobody back.

* `Db.NeedsCell`, `Db.Ancestor`: the cells a job needs, and the cells behind them;
* `NeverShips`: nothing is queued with a broken ancestor, in a run;
* `SnapshotOk.anyFailed_iff`: what the guard of a pass sees of the needs;
* `Guarded`, `Sound`: the invariants, without and with the law that no skipped need is passed;
* **`neverShips_iff`**: the first holds of a run exactly when the second does.
-/

namespace HeyoCi

/-- Failed or cancelled. -/
def JobStatus.Broken (s : JobStatus) : Prop := s = .failure ∨ s = .cancelled

theorem JobStatus.Broken.isTerminal {s : JobStatus} (h : s.Broken) : s.isTerminal = true := by
  rcases h with rfl | rfl <;> rfl

namespace Db

variable (db : Db)

/-- `c` is a cell of a need of `j`. -/
def NeedsCell (c j : JobRow) : Prop := c ∈ db.jobs.rows ∧ j ∈ db.jobs.rows ∧ c.runId = j.runId ∧
  ∃ plan, j.plan = .ok plan ∧ c.baseId ∈ plan.needs

/-- `c` is a cell behind `j`, through any number of needs. -/
def Ancestor (c j : JobRow) : Prop := Relation.TransGen db.NeedsCell c j

/-- Every cell behind `j` succeeded. -/
def Clean (j : JobRow) : Prop := ∀ c, db.Ancestor c j → c.status = .success

def CleanId (jobId : String) : Prop := ∃ j ∈ db.jobs.rows, j.id = jobId ∧ db.Clean j

/-- The job was moved to `queued`. -/
def Queued (db' : Db) (j : JobRow) : Prop := j ∈ db.jobs.rows ∧ j.status ≠ .queued ∧
  ∃ j' ∈ db'.jobs.rows, j'.id = j.id ∧ j'.status = .queued

/-- No pending job that the statement queues has a skipped need. -/
def NoSkippedNeed (st : Stmt) : Prop := ∀ j ∈ db.jobs.rows, st = .queueJob j.id →
  j.status = .pending → ∀ c, db.NeedsCell c j → c.status ≠ .skipped

variable {db} {db' : Db} {j j' : JobRow}

theorem queued_of_pending (hj : j ∈ db.jobs.rows) (hp : j.status = .pending) :
    db.Queued (db.exec (.queueJob j.id)) j := by
  refine ⟨hj, by rw [hp]; decide, _, mem_exec_jobs.mpr (Or.inl ⟨j, hj, rfl⟩),
    Table.Update.key_row _ _, ?_⟩
  rw [Table.Update.row_of_hits (by simp [Stmt.onJobs, Store.queueJob, hp])]
  rfl

theorem clean_of_needs (h : ∀ c, db.NeedsCell c j → c.status = .success ∧ db.Clean c) :
    db.Clean j := by
  intro c hc
  rcases Relation.TransGen.tail'_iff.mp hc with ⟨b, hcb, hbj⟩
  rcases Relation.reflTransGen_iff_eq_or_transGen.mp hcb with rfl | hcb
  · exact (h _ hbj).1
  · exact (h b hbj).2 c hcb

section Evolves

variable {K : StatusRel} (h : db.Evolves K db') (ho : db.Owned)

include h ho

/-- The needs of a job that was there were there. -/
theorem needsCell_back (hj : j ∈ db.jobs.rows) (hs : j.Same j') {c' : JobRow}
    (hc : db'.NeedsCell c' j') : ∃ c, Seen K c c' ∧ db.NeedsCell c j := by
  obtain ⟨hc', -, hrun, plan, hplan, hn⟩ := hc
  rw [hs.runId] at hrun
  obtain ⟨c, hc, hsame, hk⟩ := h.old (ho j hj) hc' hrun
  exact ⟨c, ⟨hsame, hk⟩, hc, hj, by rw [← hsame.runId, hrun], plan, by rw [← hs.plan, hplan],
    by rwa [← hsame.baseId]⟩

theorem ancestor_back {c' : JobRow} (ha : db'.Ancestor c' j') (hj : j ∈ db.jobs.rows)
    (hs : j.Same j') : ∃ c, Seen K c c' ∧ db.Ancestor c j := by
  induction ha generalizing j with
  | single hn =>
    obtain ⟨c, hseen, hc⟩ := needsCell_back h ho hj hs hn
    exact ⟨c, hseen, .single hc⟩
  | tail _ hn ih =>
    obtain ⟨b, hb, hbj⟩ := needsCell_back h ho hj hs hn
    obtain ⟨c, hseen, hcb⟩ := ih hbj.1 hb.1
    exact ⟨c, hseen, .tail hcb hbj⟩

end Evolves

/-- Where finished jobs keep their status, a clean job stays clean. -/
theorem Clean.evolves (h : db.Evolves StaysFinal db') (ho : db.Owned) (hj : j ∈ db.jobs.rows)
    (hs : j.Same j') (hc : db.Clean j) : db'.Clean j' := by
  intro c' ha
  obtain ⟨c, hseen, ha⟩ := ancestor_back h ho ha hj hs
  have hsucc := hc c ha
  rw [hseen.2 (by rw [hsucc]; rfl), hsucc]

theorem CleanId.evolves (h : db.Evolves StaysFinal db') (ho : db.Owned) {jobId : String}
    (hc : db.CleanId jobId) : db'.CleanId jobId := by
  obtain ⟨j, hj, rfl, hclean⟩ := hc
  obtain ⟨j', hj', hsame, -⟩ := h.job j hj
  exact ⟨j', hj', hsame.id, hclean.evolves h ho hj hsame⟩

end Db

/-! ## What the guard of a pass sees -/

theorem staysFinal_refl (s : JobStatus) : StaysFinal s s := fun _ => rfl

theorem staysFinal_trans (a b c : JobStatus) (h : StaysFinal a b) (h' : StaysFinal b c) :
    StaysFinal a c := fun ht => by
  have hb := h ht
  rw [h' (by rw [hb]; exact ht), hb]

theorem staysFinal_terminal (s s' : JobStatus) (h : StaysFinal s s') (ht : s.isTerminal = true) :
    s'.isTerminal = true := by
  rw [h ht]
  exact ht

section Guard

variable {db : Db} {runId : String} {snap : Snapshot} {todo : List JobRow} {s j : JobRow}
  {plan : JobPlan}

/-- **The guard sees a failed need exactly when the job has one.** -/
theorem SnapshotOk.anyFailed_iff (h : SnapshotOk StaysFinal db runId snap todo) (hs : s ∈ snap.jobs)
    (hj : j ∈ db.jobs.rows) (hsame : s.Same j) (hplan : s.plan = .ok plan)
    (hn : needsDone snap.jobs plan = true) :
    anyFailed plan snap.needs = true ↔ ∃ c, db.NeedsCell c j ∧ c.status.Broken := by
  obtain ⟨jobs₂, hneeds, hcov, hlater⟩ := h.needs
  have hrun : j.runId = runId := hsame.runId.trans (h.covers.old s hs).1
  rw [hneeds, HeyoCi.anyFailed_iff]
  constructor
  · rintro ⟨n, hmem, s₂, hs₂, rfl, hbroken⟩
    obtain ⟨hr, c, hc, hseen, hk⟩ := hcov.old s₂ hs₂
    refine ⟨c, ⟨hc, hj, by rw [hseen.runId, hr, hrun], plan, by rw [hsame.plan, hplan], ?_⟩, ?_⟩
    · rwa [hseen.baseId]
    · rw [hk (JobStatus.Broken.isTerminal hbroken)]
      exact hbroken
  · rintro ⟨c, ⟨hc, -, hr, plan', hplan', hmem⟩, hbroken⟩
    obtain rfl : plan = plan' := by
      rw [hsame.plan, hplan] at hplan'
      exact Except.ok.inj hplan'
    obtain ⟨s', hs', hsame', hk⟩ := h.covers.all c hc (hr.trans hrun)
    have hbase := (baseTerminal_iff _ _).mp ((needsDone_iff _ _).mp hn _ hmem)
    have hterm := hbase.2 s' hs' hsame'.baseId.symm
    obtain ⟨s₂, hs₂, hsame₂, hk₂⟩ := hlater s' hs'
    refine ⟨c.baseId, hmem, s₂, hs₂, by rw [hsame₂.baseId, hsame'.baseId], ?_⟩
    rw [hk₂ hterm, ← hk hterm]
    exact hbroken

end Guard

/-! ## Who writes which status -/

section Writers

variable {env : Env} {w : World} {a : Act} {st : Stmt} {c : Ctl}

/-- Only a pass skips a job, one whose guard is false in its snapshot. -/
theorem World.Moves.skips (h : World.Moves env w a st c) {jobId : String} {e : Option String}
    (hst : st = .setJobStatus jobId .skipped e) : ∃ p ∈ w.ctl.passes, ∃ snap s todo plan,
      p.pc = .next snap (s :: todo) ∧ s.id = jobId ∧ s.plan = .ok plan ∧
        needsDone snap.jobs plan = true ∧ shouldRun env plan snap.needs snap.ci = .ok false := by
  cases h with
  | pass i p hi r m hm hr =>
    cases hm with
    | finish snap s todo hpc status e' hd =>
      obtain ⟨rfl, rfl, rfl⟩ := Stmt.setJobStatus.inj hst
      obtain ⟨plan, hplan, hn, hrun⟩ := jobDecision_skip hd
      exact ⟨p, List.mem_of_getElem? hi, snap, s, todo, plan, hpc, rfl, hplan, hn, hrun⟩
    | _ => cases hst
  | exec i x hi o m hm ho =>
    cases hm with
    | finish plan e' hpc t =>
      rcases Exec.finalStatus_cases plan e' with hs | hs | hs <;> rw [hs] at hst <;> cases hst
    | _ => cases hst
  | _ => cases hst

/-- The statement starts a job or records its success. -/
def Stmt.Runs (st : Stmt) (jobId : String) : Prop :=
  (∃ r a, st = .claimJob jobId r a) ∨ (∃ r s f a, st = .startJob jobId r s f a) ∨
    ∃ e, st = .setJobStatus jobId .success e

/-- Only an execution starts a job or records its success. -/
theorem World.Moves.runs (h : World.Moves env w a st c) {jobId : String} (hst : st.Runs jobId) :
    ∃ x ∈ w.ctl.execs, x.body.jobId = jobId := by
  cases h with
  | pass i p hi r m hm hr =>
    cases hm with
    | finish snap s todo hpc status e' hd =>
      rcases hst with ⟨r, a, hst⟩ | ⟨r, s, f, a, hst⟩ | ⟨e, hst⟩
      · cases hst
      · cases hst
      · cases hst
        rcases jobDecision_finish hd with h | h <;> cases h
    | _ => rcases hst with ⟨r, a, hst⟩ | ⟨r, s, f, a, hst⟩ | ⟨e, hst⟩ <;> cases hst
  | exec i x hi o m hm ho =>
    refine ⟨x, List.mem_of_getElem? hi, ?_⟩
    cases hm with
    | claimed | claimLost | started | startLost | finish =>
      rcases hst with ⟨r, a, hst⟩ | ⟨r, s, f, a, hst⟩ | ⟨e, hst⟩ <;> injection hst
    | _ => rcases hst with ⟨r, a, hst⟩ | ⟨r, s, f, a, hst⟩ | ⟨e, hst⟩ <;> cases hst
  | _ => rcases hst with ⟨r, a, hst⟩ | ⟨r, s, f, a, hst⟩ | ⟨e, hst⟩ <;> cases hst

end Writers

/-! ## The invariants -/

/-- No job of a submitted plan has an `if:`. -/
def Act.Unconditional (a : Act) : Prop := ∀ runId req plan, a = .submit runId req plan →
  ∀ job ∈ plan.jobs, job.condition = none

/-- What holds while finished jobs stay as they are: a skipped job has a need that failed. -/
structure Guarded (w : World) : Prop where
  owned : w.db.Owned
  plain : ∀ j ∈ w.db.jobs.rows, ∀ plan, j.plan = .ok plan → plan.condition = none
  skipped : ∀ j ∈ w.db.jobs.rows, j.status = .skipped →
    ∃ c, w.db.NeedsCell c j ∧ c.status.Broken
  ctl : w.ctl.Ok StaysFinal (fun _ _ => True) w.db

/-- What holds while in addition no skipped need is passed: whatever is queued, runs or has succeeded
has only successes behind it. -/
structure Sound (w : World) : Prop where
  owned : w.db.Owned
  rows : ∀ j ∈ w.db.jobs.rows, j.status = .queued ∨ j.status = .running ∨ j.status = .success →
    w.db.Clean j
  ctl : w.ctl.Ok StaysFinal Db.CleanId w.db

section Step

variable {env : Env} {w : World} {a : Act} {st : Stmt} {c : Ctl}

theorem Stmt.Open.evolves {db : Db} (ho : st.Open db) : db.Evolves StaysFinal (db.exec st) :=
  Db.evolves_exec db st fun _ hj ht => Stmt.status_of_open ho hj ht

/-- A need of a job is still one after a statement. -/
theorem Db.NeedsCell.exec {db : Db} {st : Stmt} {c j : JobRow} (h : db.NeedsCell c j) :
    (db.exec st).NeedsCell ((st.onJobs db.now).row c) ((st.onJobs db.now).row j) := by
  obtain ⟨hc, hj, hrun, plan, hplan, hn⟩ := h
  have hsc := st.same db.now c
  have hsj := st.same db.now j
  exact ⟨Db.mem_exec_jobs.mpr (Or.inl ⟨c, hc, rfl⟩), Db.mem_exec_jobs.mpr (Or.inl ⟨j, hj, rfl⟩),
    by rw [hsc.runId, hsj.runId, hrun], plan, by rw [hsj.plan, hplan], by rwa [hsc.baseId]⟩

/-- A pass skips a job because a need of it failed. -/
theorem Guarded.skips (hw : Guarded w) (h : World.Moves env w a st c) {j : JobRow}
    (hj : j ∈ w.db.jobs.rows) {e : Option String} (hst : st = .setJobStatus j.id .skipped e) :
    ∃ c, w.db.NeedsCell c j ∧ c.status.Broken := by
  obtain ⟨p, hp, snap, s, todo, plan, hpc, hid, hplan, hn, hrun⟩ := h.skips hst
  have hok := hw.ctl.passes p hp
  rw [Pass.Ok, hpc] at hok
  have hs := hok.todo List.mem_cons_self
  obtain ⟨-, j₀, hj₀, hseen⟩ := hok.covers.old s hs
  obtain rfl := w.db.jobs.eq_of_key hj₀ hj (hseen.1.id.trans hid)
  have hcond := hw.plain j₀ hj plan (by rw [hseen.1.plan, hplan])
  rw [shouldRun_of_no_condition hcond] at hrun
  have hfailed : anyFailed plan snap.needs = true := by simpa using Except.ok.inj hrun
  exact (hok.anyFailed_iff hs hj hseen.1 hplan hn).mp hfailed

theorem guarded_moves (h : World.Moves env w a st c) (ho : st.Open w.db) (ha : a.Unconditional)
    (hw : Guarded w) : Guarded ⟨w.db.exec st, c⟩ := by
  refine ⟨Db.owned_exec hw.owned, ?_, ?_, ?_⟩
  · intro j' hj' plan hplan
    rcases Db.mem_exec_jobs.mp hj' with ⟨j, hj, rfl⟩ | hnew
    · exact hw.plain j hj plan (by rw [← (st.same w.db.now j).plan, hplan])
    · obtain ⟨-, -, -, req, plan', hst, job, hjob, heq⟩ := Db.inserted_spec hnew
      rw [heq] at hplan
      obtain rfl : job = plan := Except.ok.inj hplan
      cases h with
      | submit =>
        obtain ⟨rfl, rfl, rfl⟩ := Stmt.createRun.inj hst
        exact ha _ _ _ rfl job hjob
      | pass i p hi r m hm hr => cases hm <;> cases hst
      | exec i x hi o m hm ho => cases hm <;> cases hst
      | _ => cases hst
  · intro j' hj' hs
    rcases Db.mem_exec_jobs.mp hj' with ⟨j, hj, rfl⟩ | hnew
    · have hbroken : ∃ c, w.db.NeedsCell c j ∧ c.status.Broken := by
        have hm := st.moves w.db.now j
        rw [hs] at hm
        generalize hsk : JobStatus.skipped = s at hm
        cases hm with
        | keep => exact hw.skipped j hj hsk.symm
        | set s e => exact hw.skips h hj (by rw [hsk])
        | _ => cases hsk
      obtain ⟨c, hc, hb⟩ := hbroken
      refine ⟨_, hc.exec, ?_⟩
      rw [Stmt.status_of_open ho hc.1 hb.isTerminal]
      exact hb
    · rw [(Db.inserted_spec hnew).1] at hs
      cases hs
  · exact hw.ctl.moves h staysFinal_refl staysFinal_trans ho.evolves (fun _ _ => trivial)
      fun _ _ _ _ _ => trivial

/-- A pass that queues a job with no skipped need has only successes behind it. -/
theorem Sound.queues (hg : Guarded w) (hw : Sound w) {p : Pass} (hp : p ∈ w.ctl.passes) {s : JobRow}
    (hq : p.Queues env w.ctl.pool w.db s) (hn : w.db.NoSkippedNeed (.queueJob s.id)) :
    w.db.CleanId s.id := by
  obtain ⟨snap, todo, plan, route, hpc, hd, haff⟩ := hq
  obtain ⟨j, hj, hhits⟩ := (w.db.jobs.affected_iff _).mp haff
  have hids : j.id = s.id ∧ j.status = .pending := by
    simpa [Stmt.onJobs, Store.queueJob] using hhits
  have hok := hw.ctl.passes p hp
  rw [Pass.Ok, hpc] at hok
  have hs := hok.todo List.mem_cons_self
  obtain ⟨-, j₀, hj₀, hseen⟩ := hok.covers.old s hs
  obtain rfl := w.db.jobs.eq_of_key hj₀ hj (hseen.1.id.trans hids.1.symm)
  obtain ⟨hplan, hdone, hrun⟩ := jobDecision_queue hd
  have hcond := hg.plain j₀ hj plan (by rw [hseen.1.plan, hplan])
  rw [shouldRun_of_no_condition hcond] at hrun
  have hfine : ¬ anyFailed plan snap.needs = true := by
    have := Except.ok.inj hrun
    simpa using this
  rw [hok.anyFailed_iff hs hj hseen.1 hplan hdone] at hfine
  obtain ⟨j₁, hj₁, hid₁, hready⟩ := hok.covers.ready staysFinal_terminal hs hplan hdone
  obtain rfl := w.db.jobs.eq_of_key hj₁ hj (hid₁.trans hids.1.symm)
  refine ⟨j₁, hj, hids.1, Db.clean_of_needs fun c hc => ?_⟩
  obtain ⟨hcmem, -, hcrun, plan', hplan', hmem⟩ := hc
  have hterm := hready plan' hplan' _ hmem c hcmem hcrun rfl
  have hskip := hn j₁ hj (by rw [hids.1]) hids.2 c ⟨hcmem, hj, hcrun, plan', hplan', hmem⟩
  have hsucc : c.status = .success := by
    have hb : ¬ c.status.Broken := fun hb => hfine ⟨c, ⟨hcmem, hj, hcrun, plan', hplan', hmem⟩, hb⟩
    revert hterm hskip hb
    cases c.status <;> simp [JobStatus.isTerminal, JobStatus.Broken]
  exact ⟨hsucc, hw.rows c hcmem (Or.inr (Or.inr hsucc))⟩

theorem sound_moves (h : World.Moves env w a st c) (ho : st.Open w.db)
    (hn : w.db.NoSkippedNeed st) (hg : Guarded w) (hw : Sound w) :
    Sound ⟨w.db.exec st, c⟩ := by
  have hgood : ∀ id, w.db.CleanId id → (w.db.exec st).CleanId id := fun id hid =>
    hid.evolves ho.evolves hw.owned
  refine ⟨Db.owned_exec hw.owned, ?_, ?_⟩
  · intro j' hj' hs
    rcases Db.mem_exec_jobs.mp hj' with ⟨j, hj, rfl⟩ | hnew
    · refine Db.Clean.evolves ho.evolves hw.owned hj (st.same w.db.now j) ?_
      have hclean : w.db.CleanId j.id → w.db.Clean j := by
        rintro ⟨j₀, hj₀, hid, hc⟩
        rwa [w.db.jobs.eq_of_key hj₀ hj hid] at hc
      have hruns : st.Runs j.id → w.db.Clean j := by
        intro hr
        obtain ⟨x, hx, hid⟩ := h.runs hr
        rw [← hid] at hclean
        exact hclean (hw.ctl.execs x hx).good
      have hm := st.moves w.db.now j
      generalize ((st.onJobs w.db.now).row j).status = s at hm hs
      cases hm with
      | keep => exact hw.rows j hj hs
      | queue hp =>
        obtain ⟨p, hpass, s, hid, hq⟩ := h.queues hj hp rfl
        rw [← hid] at hn hclean
        exact hclean (hw.queues hg hpass hq hn)
      | claim _ r a => exact hruns (Or.inl ⟨r, a, rfl⟩)
      | start _ r s f a => exact hruns (Or.inr (Or.inl ⟨r, s, f, a, rfl⟩))
      | set s e =>
        have ht := h.setsFinal _ s e rfl
        rcases hs with rfl | rfl | rfl
        · cases ht
        · cases ht
        · exact hruns (Or.inr (Or.inr ⟨e, rfl⟩))
      | unqueue | cancel => rcases hs with hs | hs | hs <;> cases hs
    · rw [(Db.inserted_spec hnew).1] at hs
      rcases hs with hs | hs | hs <;> cases hs
  · refine hw.ctl.moves h staysFinal_refl staysFinal_trans ho.evolves hgood ?_
    rintro p hp s hq rfl
    exact hgood _ (hw.queues hg hp hq hn)

end Step

/-! ## Over runs -/

/-- The steps that find their rows open and submit jobs without an `if:`. -/
def PlainLaw (env : Env) (w : World) (a : Act) (_ : World) : Prop := w.Open env a ∧ a.Unconditional

/-- The statement of an action queues no job with a skipped need. -/
def World.NoSkippedNeed (env : Env) (w : World) (a : Act) : Prop :=
  ∀ st, stmtOf env w a = some st → w.db.NoSkippedNeed st

/-- Those that in addition pass no skipped need. -/
def ShipLaw (env : Env) (w : World) (a : Act) (w' : World) : Prop :=
  PlainLaw env w a w' ∧ w.NoSkippedNeed env a

section Runs

variable {env : Env} {w w' : World}

theorem guarded_reachable (h : (machine env).Reachable ((machine env).Lawful (PlainLaw env)) w) :
    Guarded w := by
  refine Machine.Reachable.inv Guarded ?_ ?_ h
  · rintro w ⟨now, pool, rfl⟩
    refine ⟨?_, ?_, ?_, ?_, ?_, ?_, ?_⟩ <;> intro x hx <;> cases hx
  · intro w a w' _ hw hlaw hstep
    obtain ⟨ho, ha⟩ := hlaw w' hstep
    obtain ⟨st, c, hm, hopen, rfl⟩ := step_open hstep ho
    exact guarded_moves hm hopen ha hw

theorem Lawful.plain {a : Act} (h : (machine env).Lawful (ShipLaw env) w a) :
    (machine env).Lawful (PlainLaw env) w a := fun t ht => (h t ht).1

theorem sound_reachable (h : (machine env).Reachable ((machine env).Lawful (ShipLaw env)) w) :
    Sound w := by
  refine Machine.Reachable.inv Sound ?_ ?_ h
  · rintro w ⟨now, pool, rfl⟩
    refine ⟨?_, ?_, ?_, ?_, ?_, ?_⟩ <;> intro x hx <;> cases hx
  · intro w a w' hr hw hlaw hstep
    have hg := guarded_reachable (hr.mono fun _ _ => Lawful.plain)
    obtain ⟨⟨ho, -⟩, hn⟩ := hlaw w' hstep
    obtain ⟨st, c, hst, hm, rfl⟩ := step_cases hstep
    exact sound_moves hm (ho st hst) (hn st hst) hg hw

/-- A clean job stays clean along a run. -/
theorem cleanId_reach (h : (machine env).Reach ((machine env).Lawful (ShipLaw env)) w w')
    (ho : w.db.Owned) {jobId : String} (hc : w.db.CleanId jobId) : w'.db.CleanId jobId := by
  have key : ∀ t a t', (t.db.Owned ∧ t.db.CleanId jobId) →
      (machine env).Lawful (ShipLaw env) t a → (machine env).step t a = some t' →
      t'.db.Owned ∧ t'.db.CleanId jobId := by
    rintro t a t' ⟨hot, hct⟩ hlaw hstep
    obtain ⟨st, c, -, hopen, rfl⟩ := step_open hstep (hlaw t' hstep).1.1
    exact ⟨Db.owned_exec hot, hct.evolves hopen.evolves hot⟩
  exact (Machine.Reach.inv (fun t => t.db.Owned ∧ t.db.CleanId jobId) key h ⟨ho, hc⟩).2

end Runs

/-- In no state after a job was moved to `queued` is a cell behind it failed or cancelled. -/
def NeverShips (env : Env) (w₀ : World) (as : List Act) : Prop :=
  ∀ pre a mid rest, as = pre ++ a :: (mid ++ rest) → ∀ w w' w'',
    (machine env).run w₀ pre = some w → (machine env).step w a = some w' →
    (machine env).run w' mid = some w'' → ∀ j, w.db.Queued w'.db j →
      ∀ j'' ∈ w''.db.jobs.rows, j''.id = j.id → ∀ c, w''.db.Ancestor c j'' → ¬ c.status.Broken

/-- **Without `if:`s, and while finished jobs stay as they are, a run never queues a job behind a
broken one exactly when it never passes a skipped need.** -/
theorem neverShips_iff (env : Env) (now : Nat) (pool : Pool) (as : List Act)
    (hplain : ∀ a ∈ as, a.Unconditional)
    (hopen : (machine env).Throughout (fun w a _ => w.Open env a) (World.start now pool) as) :
    NeverShips env (World.start now pool) as ↔
      (machine env).Throughout (fun w a _ => w.NoSkippedNeed env a) (World.start now pool) as := by
  have hlaw : (machine env).Throughout (PlainLaw env) (World.start now pool) as :=
    Machine.throughout_and.mpr ⟨hopen, Machine.throughout_of_forall hplain⟩
  have hstart : (machine env).init (World.start now pool) := ⟨now, pool, rfl⟩
  constructor
  · intro h
    refine Machine.throughout_iff_split.mpr fun pre a post w w' hsplit hrun hstep => ?_
    obtain ⟨st, ctl, hst, -, rfl⟩ := step_cases hstep
    intro st' hst' j hj hqueue hp c hc hskip
    obtain rfl : st' = .queueJob j.id := hqueue
    obtain rfl : st = .queueJob j.id := Option.some.inj (hst.symm.trans hst')
    have hpre := Machine.throughout_append.mp (hsplit ▸ hlaw)
    have hg := guarded_reachable ⟨_, hstart, hpre.1.reach hrun⟩
    obtain ⟨⟨ho, -⟩, -⟩ := hpre.2 w hrun _ hstep
    obtain ⟨d, hd, hbroken⟩ := hg.skipped c hc.1 hskip
    refine h pre a [] post hsplit w _ _ hrun hstep rfl j (Db.queued_of_pending hj hp) _ hc.exec.2.1
      (Stmt.same w.db.now _ j).id _ (Relation.TransGen.tail (.single hd.exec) hc.exec) ?_
    rw [Stmt.status_of_open (ho _ hst) hd.1 hbroken.isTerminal]
    exact hbroken
  · intro hn pre a mid rest hsplit w w' w'' hrun hstep hmid j hj j'' hj'' hid c hc hbroken
    have hship : (machine env).Throughout (ShipLaw env) (World.start now pool) as :=
      Machine.throughout_and.mpr ⟨hlaw, hn⟩
    have hpre := Machine.throughout_append.mp (hsplit ▸ hship)
    obtain ⟨hfirst, hafter⟩ := hpre.2 w hrun w' hstep
    have hw' : (machine env).Reachable ((machine env).Lawful (ShipLaw env)) w' := by
      refine Machine.Reachable.step ⟨_, hstart, hpre.1.reach hrun⟩ (fun t ht => ?_) hstep
      obtain rfl : w' = t := Option.some.inj (hstep.symm.trans ht)
      exact hfirst
    have hsound := sound_reachable hw'
    obtain ⟨-, -, j', hj', hid', hqueued⟩ := hj
    have hclean : w'.db.CleanId j.id := ⟨j', hj', hid', hsound.rows j' hj' (Or.inl hqueued)⟩
    have hreach := (Machine.throughout_append.mp hafter).1.reach hmid
    obtain ⟨j₁, hj₁, hid₁, hc₁⟩ := cleanId_reach hreach hsound.owned hclean
    obtain rfl := w''.db.jobs.eq_of_key hj₁ hj'' (hid₁.trans hid.symm)
    rw [hc₁ c hc] at hbroken
    rcases hbroken with hb | hb <;> cases hb

/-- In a run without a skipped job, nothing broken is behind a queued one. -/
theorem neverShips_deploy : NeverShips .plain (World.start 0 .single) deployQueued := by
  have hplain : ∀ a ∈ deployQueued, a.Unconditional := by
    rintro a ha runId req plan rfl
    obtain ⟨-, -, rfl⟩ : runId = "r" ∧ req = .plain ∧ plan = deployPlan := by
      simpa [deployQueued, schedule, takeJob, succeedJob, List.mem_replicate] using ha
    simp [deployPlan, JobPlan.plain]
  have hnone : (machine .plain).Throughout (fun w _ _ => ∀ j ∈ w.db.jobs.rows, j.status ≠ .skipped)
      (World.start 0 .single) deployQueued := by decide
  exact (neverShips_iff .plain 0 .single deployQueued hplain (by decide)).mpr
    (hnone.mono fun w _ _ h _ _ j _ _ _ c hc => h c hc.1)

/-- A chain of three jobs whose first one fails, and a job beside it that ends later. -/
def brokenChain : List Act :=
  .submit "r" .plain ⟨".ci/build.yml", none, [.plain "build" [], .plain "lint" [],
      .plain "test" ["build"], .plain "deploy" ["test"]], by decide⟩ ::
    (schedule 4 2 ++ takeJob 0 ++ failJob ++ schedule 4 0 ++ takeJob 1 ++ succeedJob ++
      List.replicate 4 (.pass 0 .ok))

/-- The pass after the second job queues the end of the broken chain. -/
theorem broken_build_ships : ¬ ∀ (env : Env) (now : Nat) (pool : Pool) (as : List Act),
    (∀ a ∈ as, ∀ runId req plan, a = .submit runId req plan →
      ∀ job ∈ plan.jobs, job.condition = none ∧ job.continueOnError = false) →
    NeverShips env (World.start now pool) as := by
  intro h
  have hbefore : ((machine .plain).run (World.start 0 .single) brokenChain).bind
      (·.node "r.deploy") = some ⟨.pending, "r", "deploy", ["test"]⟩ := by decide
  have hafter : ((machine .plain).run (World.start 0 .single) (brokenChain ++ [.pass 0 .ok])).map
      (fun w => (w.node "r.deploy", w.node "r.test", w.node "r.build")) =
      some (some ⟨.queued, "r", "deploy", ["test"]⟩, some ⟨.skipped, "r", "test", ["build"]⟩,
        some ⟨.failure, "r", "build", []⟩) := by decide
  obtain ⟨w, hw, hnode⟩ := Option.bind_eq_some_iff.mp hbefore
  obtain ⟨w', hw', hafter⟩ := Option.map_eq_some_iff.mp hafter
  rw [Machine.run_concat, hw, Option.bind_some] at hw'
  simp only [Prod.mk.injEq] at hafter
  obtain ⟨j, hj, _, hid, -, hjn⟩ := World.node_spec hnode
  obtain ⟨d, hd, pd, hdid, hdp, hdn⟩ := World.node_spec hafter.1
  obtain ⟨t, ht, pt, -, htp, htn⟩ := World.node_spec hafter.2.1
  obtain ⟨b, hb, _, -, -, hbn⟩ := World.node_spec hafter.2.2
  obtain ⟨hds, hdr, -, hdneeds⟩ := Node.mk.inj hdn
  obtain ⟨-, htr, htb, htneeds⟩ := Node.mk.inj htn
  obtain ⟨hbs, hbr, hbb, -⟩ := Node.mk.inj hbn
  have hdeploy : w'.db.NeedsCell t d := ⟨ht, hd, htr.symm.trans hdr, pd, hdp, by
    rw [← hdneeds, ← htb]
    exact List.mem_singleton_self _⟩
  have htest : w'.db.NeedsCell b t := ⟨hb, ht, hbr.symm.trans htr, pt, htp, by
    rw [← htneeds, ← hbb]
    exact List.mem_singleton_self _⟩
  have hqueued : w.db.Queued w'.db j := by
    refine ⟨hj, ?_, d, hd, hdid.trans hid.symm, hds.symm⟩
    rw [← (Node.mk.inj hjn).1]
    decide
  refine h .plain 0 .single (brokenChain ++ [.pass 0 .ok]) ?_ brokenChain (.pass 0 .ok) [] [] rfl w
    w' w' hw hw' rfl j hqueued d hd (hdid.trans hid.symm) b (.tail (.single htest) hdeploy)
    (Or.inl hbs.symm)
  rintro a ha runId req plan rfl
  obtain ⟨-, -, rfl⟩ : runId = "r" ∧ req = .plain ∧ plan = _ := by
    simpa [brokenChain, schedule, takeJob, failJob, succeedJob, List.mem_replicate] using ha
  simp [JobPlan.plain]

end HeyoCi
