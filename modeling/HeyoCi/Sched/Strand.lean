import HeyoCi.Sched.RollUp

/-!
# What can still move a job

A job that is queued or running is moved by a delivery of its message, by the pass that queued it, by
a cancellation, or, while it is queued and its run is not over, by the watchdog. Each of these can
end without the job.

* `Ctl.Holds`, `Db.Watched`, `World.NotStranded`: what can still move a job, for every job;
* `Ctl.Numbered`: a delivery and its message carry the same body;
* `World.HandsOver`: what a step takes away leaves its job to something else;
* **`notStranded_iff`**: a step strands no job exactly when it hands over.
-/

namespace HeyoCi

/-- Queued or running. -/
def JobStatus.isActive : JobStatus → Bool
  | queued | running => true
  | _ => false

theorem JobStatus.isTerminal_of_isActive (s : JobStatus) (h : s.isActive = true) :
    s.isTerminal = false := by
  cases s <;> first | rfl | cases h

/-- The job a pass has queued and is about to publish or to put back. -/
def PassPc.places : PassPc → Option String
  | .publish _ job .. | .unqueue _ job _ => some job.id
  | _ => none

/-- Some actor or message still moves the job. -/
def Ctl.Holds (c : Ctl) (j : JobRow) : Prop :=
  (∃ x ∈ c.execs, x.body.jobId = j.id) ∨
    (∃ m ∈ c.msgs, m.body.jobId = j.id ∧ m.delivered < maxDeliver) ∨
    j.runId ∈ c.cancels ∨ (j.status = .queued ∧ ∃ p ∈ c.passes, j.id ∈ p.pc.places)

/-- The watchdog finds the job once it has waited long enough. -/
def Db.Watched (db : Db) (j : JobRow) : Prop :=
  j.status = .queued ∧ j.queuedAt.isSome = true ∧ j.runnerHdId = none ∧
    ∃ r ∈ db.runs.rows, r.id = j.runId ∧ r.status.isTerminal = false

namespace World

variable (w : World)

def Movable (j : JobRow) : Prop := j.status.isActive = true → w.ctl.Holds j ∨ w.db.Watched j

/-- No job is queued or running with nothing that can ever move it. -/
def NotStranded : Prop := ∀ j ∈ w.db.jobs.rows, w.Movable j

end World

/-- What the watchdog reads of a watched job once it has waited long enough. -/
theorem Db.Watched.waiting {db : Db} {j : JobRow} (h : db.Watched j) (wait : Nat) :
    ∃ d, ∀ d' ≥ d, (db.exec (.tick d')).waiting wait j = true := by
  obtain ⟨hs, hq, -, r, hr, hid, ho⟩ := h
  obtain ⟨t, ht⟩ := Option.isSome_iff_exists.mp hq
  refine ⟨t + wait + 1, fun d' hd => ?_⟩
  have hfind : db.runs.find j.runId = some r := db.runs.find_eq_some.mpr ⟨hr, hid⟩
  have hlt : t + wait < db.now + d' := by omega
  simp [Db.waiting, Db.exec, hs, ht, hfind, ho, hlt]

/-- The watchdog does not skip a watched job. -/
theorem Db.Watched.not_online {db : Db} {j : JobRow} (h : db.Watched j) (pool : Pool) :
    Watch.online pool j = false := by
  rw [Watch.online, h.2.2.1]
  rfl

/-! ## Deliveries and their messages -/

/-- Messages have numbers of their own, and a delivery carries the body of its message. -/
structure Ctl.Numbered (c : Ctl) : Prop where
  msgs : ∀ m ∈ c.msgs, m.seq < c.nextSeq
  execs : ∀ x ∈ c.execs, x.seq < c.nextSeq
  same : ∀ m ∈ c.msgs, ∀ m' ∈ c.msgs, m.seq = m'.seq → m.body = m'.body
  body : ∀ x ∈ c.execs, ∀ m ∈ c.msgs, x.seq = m.seq → x.body = m.body

section Numbered

variable {env : Env} {w : World} {a : Act} {st : Stmt} {c : Ctl}

/-- Fewer messages and executions, or the same ones further on, are as numbered. -/
theorem Ctl.Numbered.mono {c' : Ctl} (h : c.Numbered) (hseq : c'.nextSeq = c.nextSeq)
    (hm : ∀ m' ∈ c'.msgs, ∃ m ∈ c.msgs, m'.seq = m.seq ∧ m'.body = m.body)
    (hx : ∀ x' ∈ c'.execs, (∃ x ∈ c.execs, x'.seq = x.seq ∧ x'.body = x.body) ∨
      ∃ m ∈ c.msgs, x'.seq = m.seq ∧ x'.body = m.body) : c'.Numbered := by
  refine ⟨fun m' hm' => ?_, fun x' hx' => ?_, fun m₁' h₁ m₂' h₂ hs => ?_, fun x' hx' m' hm' hs => ?_⟩
  · obtain ⟨m, hm, hs, -⟩ := hm m' hm'
    rw [hs, hseq]
    exact h.msgs m hm
  · rw [hseq]
    rcases hx x' hx' with ⟨x, hx, hs, -⟩ | ⟨m, hm, hs, -⟩
    · rw [hs]
      exact h.execs x hx
    · rw [hs]
      exact h.msgs m hm
  · obtain ⟨m₁, hm₁, hs₁, hb₁⟩ := hm m₁' h₁
    obtain ⟨m₂, hm₂, hs₂, hb₂⟩ := hm m₂' h₂
    rw [hb₁, hb₂]
    exact h.same m₁ hm₁ m₂ hm₂ (by rw [← hs₁, ← hs₂, hs])
  · obtain ⟨m, hm, hsm, hbm⟩ := hm m' hm'
    rw [hbm]
    rcases hx x' hx' with ⟨x, hx, hsx, hbx⟩ | ⟨m₂, hm₂, hsx, hbx⟩
    · rw [hbx]
      exact h.body x hx m hm (by rw [← hsx, ← hsm, hs])
    · rw [hbx]
      exact h.same m₂ hm₂ m hm (by rw [← hsx, ← hsm, hs])

theorem Ctl.Numbered.send (h : c.Numbered) (rm : Option (Route × JobMessage)) :
    (c.send rm).Numbered := by
  cases rm with
  | none => exact h
  | some rm =>
    have hold : ∀ m ∈ (c.send (some rm)).msgs, m ∈ c.msgs ∨ m = ⟨c.nextSeq, rm.1, rm.2, 0⟩ := by
      intro m hm
      simpa [Ctl.send] using hm
    refine ⟨fun m hm => ?_, fun x hx => ?_, fun m₁ h₁ m₂ h₂ hs => ?_, fun x hx m hm hs => ?_⟩
    · rcases hold m hm with hm | rfl
      · exact Nat.lt_succ_of_lt (h.msgs m hm)
      · exact Nat.lt_succ_self _
    · exact Nat.lt_succ_of_lt (h.execs x hx)
    · rcases hold m₁ h₁ with h₁ | rfl <;> rcases hold m₂ h₂ with h₂ | rfl
      · exact h.same m₁ h₁ m₂ h₂ hs
      · exact absurd hs (Nat.ne_of_lt (h.msgs m₁ h₁))
      · exact absurd hs.symm (Nat.ne_of_lt (h.msgs m₂ h₂))
      · rfl
    · rcases hold m hm with hm | rfl
      · exact h.body x hx m hm hs
      · exact absurd hs (Nat.ne_of_lt (h.execs x hx))

theorem numbered_moves (h : World.Moves env w a st c) (hw : w.ctl.Numbered) : c.Numbered := by
  have hm : ∀ m ∈ w.ctl.msgs, ∃ m₀ ∈ w.ctl.msgs, m.seq = m₀.seq ∧ m.body = m₀.body :=
    fun m hm => ⟨m, hm, rfl, rfl⟩
  have hx : ∀ x ∈ w.ctl.execs, (∃ x₀ ∈ w.ctl.execs, x.seq = x₀.seq ∧ x.body = x₀.body) ∨
      ∃ m ∈ w.ctl.msgs, x.seq = m.seq ∧ x.body = m.body := fun x hx => Or.inl ⟨x, hx, rfl, rfl⟩
  cases h with
  | pass i p hi r m _ _ =>
    exact (hw.send m.send).mono rfl (fun m hm => ⟨m, hm, rfl, rfl⟩) fun x hx =>
      Or.inl ⟨x, hx, rfl, rfl⟩
  | deliver m hmem hd =>
    refine hw.mono rfl (fun m' hm' => ?_) fun x hx' => ?_
    · obtain ⟨m₀, hm₀, rfl⟩ := List.mem_map.mp hm'
      refine ⟨m₀, hm₀, ?_⟩
      split_ifs <;> exact ⟨rfl, rfl⟩
    · rcases List.mem_append.mp hx' with hx' | hx'
      · exact hx x hx'
      · obtain rfl := List.mem_singleton.mp hx'
        exact Or.inr ⟨m, hmem, rfl, rfl⟩
  | exec i x hi o m _ ho =>
    have hput : ∀ o' : Option Exec, (∀ y, o' = some y → y.seq = x.seq ∧ y.body = x.body) →
        ∀ y ∈ Actors.put w.ctl.execs i o', ∃ x₀ ∈ w.ctl.execs, y.seq = x₀.seq ∧ y.body = x₀.body := by
      intro o' ho' y hy
      rcases Actors.mem_put hy with hy | hy
      · exact ⟨y, hy, rfl, rfl⟩
      · exact ⟨x, List.mem_of_getElem? hi, ho' y hy⟩
    cases hn : m.next with
    | goto pc =>
      refine hw.mono rfl hm fun y hy => Or.inl (hput (some { x with pc := pc }) ?_ y hy)
      rintro y hy
      cases hy
      exact ⟨rfl, rfl⟩
    | settled acked =>
      refine hw.mono rfl (fun m' hm' => hm m' ?_) fun y hy => Or.inl (hput none (fun _ h => by cases h) y hy)
      simp only [Ctl.execTo] at hm'
      split_ifs at hm'
      · exact (List.mem_filter.mp hm').1
      · exact hm'
  | execDies i x hi =>
    refine hw.mono rfl hm fun y hy => hx y ?_
    change y ∈ Actors.put w.ctl.execs i none at hy
    exact Actors.mem_put_none hy
  | _ => exact hw.mono rfl hm hx

end Numbered

/-! ## What a step takes away -/

/-- Whether an execution ends with this outcome, and whether it has acknowledged its message. -/
def Exec.settles (x : Exec) (o : Outcome) : Option Bool :=
  match x.pc, o with
  | .ack, .fail _ => some false
  | .ack, _ => some true
  | .nak, _ => some false
  | _, _ => none

/-- The job a pass lets go of: the stream drops its publish, or its rollback fails. -/
def Pass.drops (p : Pass) (r : Reply) : Option String :=
  match p.pc, r with
  | .publish _ job .., .duplicate => some job.id
  | .unqueue _ job _, .fail => some job.id
  | _, _ => none

/-- What a step takes away leaves its job to something else: a delivery that ends or dies, a pass
that dies or lets go of a job, a roll-up that takes a run from the watchdog, and a cancellation that
dies. -/
def World.HandsOver (w : World) : Act → Prop
  | .execDies i => ∀ x ∈ w.ctl.execs[i]?, ∀ j ∈ w.db.jobs.rows, j.id = x.body.jobId →
      Movable ⟨w.db, w.ctl.withoutExec i⟩ j
  | .exec i o => ∀ x ∈ w.ctl.execs[i]?, ∀ acked ∈ x.settles o, ∀ j ∈ w.db.jobs.rows,
      j.id = x.body.jobId → Movable ⟨w.db, w.ctl.execTo i x (.settled acked)⟩ j
  | .passDies i => ∀ p ∈ w.ctl.passes[i]?, ∀ j ∈ w.db.jobs.rows, j.id ∈ p.pc.places →
      Movable ⟨w.db, w.ctl.withoutPass i⟩ j
  | .pass i r => ∀ p ∈ w.ctl.passes[i]?,
      (∀ j ∈ w.db.jobs.rows, j.id ∈ p.drops r → Movable ⟨w.db, w.ctl.withoutPass i⟩ j) ∧
      (r ≠ .fail → ∀ statuses ∈ p.pc.read, (rollUp statuses).isTerminal = true →
        ∀ j ∈ w.db.jobs.rows, j.runId = p.runId → j.status = .queued → w.ctl.Holds j)
  | .cancelDies i => ∀ runId ∈ w.ctl.cancels[i]?, ∀ j ∈ w.db.jobs.rows, j.runId = runId →
      Movable ⟨w.db, { w.ctl with cancels := Actors.put w.ctl.cancels i none }⟩ j
  | _ => True

section Holds

variable {c c' : Ctl} {j j' : JobRow}

theorem Ctl.Holds.sub (h : c.Holds j) (hx : ∀ x ∈ c.execs, x.body.jobId = j.id → x ∈ c'.execs)
    (hm : ∀ m ∈ c.msgs, m.body.jobId = j.id → m ∈ c'.msgs) (hc : ∀ r ∈ c.cancels, r ∈ c'.cancels)
    (hp : ∀ p ∈ c.passes, j.id ∈ p.pc.places → p ∈ c'.passes) : c'.Holds j := by
  rcases h with ⟨x, hmem, hid⟩ | ⟨m, hmem, hid, hd⟩ | hcancel | ⟨hs, p, hmem, hid⟩
  · exact Or.inl ⟨x, hx x hmem hid, hid⟩
  · exact Or.inr (Or.inl ⟨m, hm m hmem hid, hid, hd⟩)
  · exact Or.inr (Or.inr (Or.inl (hc _ hcancel)))
  · exact Or.inr (Or.inr (Or.inr ⟨hs, p, hp p hmem hid, hid⟩))

theorem Ctl.Holds.same (h : c.Holds j) (hs : j.Same j') (hst : j'.status = j.status) :
    c.Holds j' := by
  unfold Ctl.Holds
  rw [hs.id, hs.runId, hst]
  exact h

@[simp] theorem Ctl.send_cancels (c : Ctl) (m : Option (Route × JobMessage)) :
    (c.send m).cancels = c.cancels := by
  cases m <;> rfl

theorem Ctl.msgs_send (c : Ctl) (m : Option (Route × JobMessage)) :
    ∀ m' ∈ c.msgs, m' ∈ (c.send m).msgs := by
  cases m with
  | none => exact fun _ h => h
  | some rm => exact fun _ h => List.mem_append_left _ h

variable {i : Nat} {p : Pass} {m : PassMove}

/-- A pass that moved, compared with one that is gone. -/
theorem Ctl.Holds.passTo (hi : c.passes[i]? = some p) (h : (c.withoutPass i).Holds j) :
    (c.passTo i p m).Holds j := by
  refine h.sub (fun x hx _ => ?_) (fun m' hm' _ => c.msgs_send m.send m' hm') (fun r hr => ?_)
    fun q hq _ => (Actors.mem_put_iff hi).mpr (Or.inl hq)
  · simpa [Ctl.passTo, Ctl.withoutPass] using hx
  · simpa [Ctl.passTo, Ctl.withoutPass] using hr

theorem Ctl.Holds.withoutPass (hi : c.passes[i]? = some p) (h : c.Holds j)
    (hp : j.id ∉ p.pc.places) : (c.withoutPass i).Holds j := by
  refine h.sub (fun _ hx _ => hx) (fun _ hm _ => hm) (fun _ hr => hr) fun q hq hid => ?_
  exact Actors.mem_put_of_ne (o := none) hi hq fun heq => hp (heq ▸ hid)

/-- What holds a job when a pass is gone, unless it was that pass alone. -/
theorem Ctl.Holds.without_or (hi : c.passes[i]? = some p) (h : c.Holds j) :
    (c.withoutPass i).Holds j ∨ (j.status = .queued ∧ j.id ∈ p.pc.places) := by
  rcases h with hx | hm | hc | ⟨hs, q, hq, hid⟩
  · exact Or.inl (Or.inl hx)
  · exact Or.inl (Or.inr (Or.inl hm))
  · exact Or.inl (Or.inr (Or.inr (Or.inl hc)))
  · by_cases heq : q = p
    · exact Or.inr ⟨hs, heq ▸ hid⟩
    · exact Or.inl (Or.inr (Or.inr (Or.inr ⟨hs, q, Actors.mem_put_of_ne (o := none) hi hq heq, hid⟩)))

/-- A pass that went on without the job and without a message leaves what it would leave dead. -/
theorem Ctl.Holds.of_passTo (hi : c.passes[i]? = some p) (h : (c.passTo i p m).Holds j)
    (hsend : m.send = none) (hp : ∀ pc, m.next = some pc → j.id ∉ pc.places) :
    (c.withoutPass i).Holds j := by
  refine h.sub (fun x hx _ => ?_) (fun m' hm' _ => ?_) (fun r hr => ?_) fun q hq hid => ?_
  · simpa [Ctl.passTo, Ctl.withoutPass] using hx
  · simpa [Ctl.passTo, Ctl.withoutPass, hsend, Ctl.send] using hm'
  · simpa [Ctl.passTo, Ctl.withoutPass] using hr
  · rcases (Actors.mem_put_iff hi).mp hq with hq | hq
    · exact hq
    · obtain ⟨pc, hpc, rfl⟩ := Option.map_eq_some_iff.mp hq
      exact absurd hid (hp pc hpc)

/-- Another execution's end. -/
theorem Ctl.Holds.withoutExec {x : Exec} (hi : c.execs[i]? = some x) (h : c.Holds j)
    (hid : j.id ≠ x.body.jobId) : (c.withoutExec i).Holds j := by
  refine h.sub (fun y hy hyid => ?_) (fun _ hm _ => hm) (fun _ hr => hr) fun _ hp _ => hp
  exact Actors.mem_put_of_ne (o := none) hi hy fun heq => hid (by rw [← hyid, heq])

/-- The end of the cancellation of another run. -/
theorem Ctl.Holds.withoutCancel {runId : String} (hi : c.cancels[i]? = some runId) (h : c.Holds j)
    (hne : j.runId ≠ runId) :
    Ctl.Holds { c with cancels := Actors.put c.cancels i none } j := by
  rcases h with hx | hm | hc | hp
  · exact Or.inl hx
  · exact Or.inr (Or.inl hm)
  · exact Or.inr (Or.inr (Or.inl (Actors.mem_put_of_ne (o := none) hi hc hne)))
  · exact Or.inr (Or.inr (Or.inr hp))

/-- A delivery holds its job, and leaves the other messages alone. -/
theorem Ctl.Holds.deliver (hnum : c.Numbered) {m : QueueMsg} (hm : m ∈ c.msgs) (h : c.Holds j) :
    (c.deliver m).Holds j := by
  by_cases hid : j.id = m.body.jobId
  · refine Or.inl ⟨⟨m.seq, m.body, m.delivered + 1, .getJob⟩, ?_, hid.symm⟩
    exact List.mem_append_right _ (List.mem_singleton_self _)
  · refine h.sub (fun _ hx _ => List.mem_append_left _ hx) (fun m' hm' hid' => ?_)
      (fun _ hr => hr) fun _ hp _ => hp
    refine List.mem_map.mpr ⟨m', hm', if_neg fun hseq => hid ?_⟩
    rw [← hid', hnum.same m' hm' m hm hseq]

end Holds

/-- A cancellation leaves no job of its run queued or running. -/
theorem Stmt.runId_ne_of_cancelJobs {runId : String} {now : Nat} {j : JobRow}
    (hact : j.status.isActive = true)
    (hs : (((Stmt.cancelJobs runId).onJobs now).row j).status = j.status) : j.runId ≠ runId := by
  rintro rfl
  rw [Table.Update.row_of_hits] at hs
  · rw [← hs] at hact
    cases hact
  · revert hact
    simp only [Stmt.onJobs, Store.cancelJobs]
    cases j.status <;> simp [JobStatus.isActive, JobStatus.isTerminal]

section Watched

variable {db : Db} {st : Stmt} {j : JobRow}

/-- A job that stays queued stays as the watchdog wants it. -/
theorem Stmt.queued_row {now : Nat} (hset : st.SetsFinal) (hq : j.status = .queued)
    (hs : ((st.onJobs now).row j).status = .queued) :
    ((st.onJobs now).row j).queuedAt = j.queuedAt ∧
      ((st.onJobs now).row j).runnerHdId = j.runnerHdId := by
  by_cases hits : (st.onJobs now).hits j = true
  · rw [Table.Update.row_of_hits hits] at hs ⊢
    cases st with
    | setJobStatus jobId s e =>
      have hfinal := hset jobId s e rfl
      obtain rfl : s = .queued := hs
      cases hfinal
    | queueJob jobId =>
      simp [onJobs, Store.queueJob, hq] at hits
    | cancelJobs | claimJob | startJob | unqueueJob => cases hs
    | _ => exact ⟨rfl, rfl⟩
  · rw [Table.Update.row_of_not_hits (by simpa using hits)]
    exact ⟨rfl, rfl⟩

theorem Db.Watched.exec (h : db.Watched j) (hset : st.SetsFinal)
    (hs : ((st.onJobs db.now).row j).status = .queued)
    (hruns : ∀ r ∈ db.runs.rows, r.id = j.runId → r.status.isTerminal = false →
      ((st.onRuns db.now).row r).status.isTerminal = false) :
    (db.exec st).Watched ((st.onJobs db.now).row j) := by
  obtain ⟨hq, hat, hrunner, r, hr, hid, ho⟩ := h
  obtain ⟨hat', hrunner'⟩ := Stmt.queued_row hset hq hs
  refine ⟨hs, by rw [hat', hat], by rw [hrunner', hrunner], _, exec_runs_of_mem hr, ?_,
    hruns r hr hid ho⟩
  rw [(st.same db.now j).runId, ← hid]
  exact (st.onRuns db.now).key_row r

end Watched

/-! ## Every step but those keeps what it finds -/

section Kept

variable {env : Env} {w : World} {a : Act} {st : Stmt} {c : Ctl} {j : JobRow}

/-- A job that keeps its status is still held after a pass moved, or the pass handed it over. -/
theorem kept_pass {i : Nat} {p : Pass} (hi : w.ctl.passes[i]? = some p) {r : Reply} {m : PassMove}
    (hr : p.move env w.ctl.pool w.db r = m) (hord : Ordered w) (hh : w.HandsOver (.pass i r))
    (hj : j ∈ w.db.jobs.rows) (hact : j.status.isActive = true)
    (hs : ((m.stmt.onJobs w.db.now).row j).status = j.status) (hold : w.ctl.Holds j) :
    World.Movable ⟨w.db.exec m.stmt, w.ctl.passTo i p m⟩ ((m.stmt.onJobs w.db.now).row j) := by
  rcases hold.without_or hi with hout | ⟨hq, hid⟩
  · exact fun _ => Or.inl ((hout.passTo hi).same (m.stmt.same w.db.now j) hs)
  have hdropped : m.stmt = .read → j.id ∈ p.drops r →
      World.Movable ⟨w.db.exec m.stmt, w.ctl.passTo i p m⟩ ((m.stmt.onJobs w.db.now).row j) := by
    intro hst hdrop _
    rw [hst, Db.exec_read]
    exact ((hh p hi).1 j hj hdrop hact).imp_left fun h => h.passTo hi
  have hok := hord.ctl.passes p (List.mem_of_getElem? hi)
  obtain ⟨runId, pc⟩ := p
  cases pc with
  | publish snap job route msg todo =>
    have hjob : job.id = j.id := Option.some.inj hid
    obtain ⟨-, -, -, hmsg⟩ := hok
    have hsent : (w.ctl.passTo i ⟨runId, .publish snap job route msg todo⟩
        ⟨.read, m.next, some (route, msg)⟩).Holds j := by
      refine Or.inr (Or.inl ⟨⟨w.ctl.nextSeq, route, msg, 0⟩, ?_, hmsg.trans hjob, Nat.succ_pos 3⟩)
      exact List.mem_append_right _ (List.mem_singleton_self _)
    cases r with
    | ok | unacked =>
      subst hr
      exact fun _ => Or.inl hsent
    | duplicate =>
      subst hr
      exact hdropped rfl hid
    | fail =>
      subst hr
      exact fun _ => Or.inl (Or.inr (Or.inr (Or.inr ⟨hq, _, Actors.mem_put_self hi, hid⟩)))
  | unqueue snap job todo =>
    have hjob : job.id = j.id := Option.some.inj hid
    have hback : m.stmt = .unqueueJob job.id → False := by
      intro hst
      rw [hst, Table.Update.row_of_hits (by simp [Stmt.onJobs, Store.unqueueJob, hjob, hq]), hq] at hs
      cases hs
    cases r with
    | fail =>
      subst hr
      exact hdropped rfl hid
    | ok | duplicate | unacked =>
      subst hr
      exact (hback rfl).elim
  | _ => cases hid

/-- An execution ends when its delivery is settled. -/
theorem Exec.Moves.settles_of {x : Exec} {o : Outcome} {m : ExecMove} {pool : Pool} {db : Db}
    (hm : x.Moves db m) (ho : x.move env pool db o = m) {acked : Bool} (hn : m.next = .settled acked) :
    x.settles o = some acked ∧ m.stmt = .read := by
  have hfailed : ∀ e, x.failed e ≠ .settled acked := by
    intro e he
    unfold Exec.failed at he
    split_ifs at he
  have hend : x.pc = .ack ∨ x.pc = .nak := by
    cases hm with
    | settle h => exact Or.inl h
    | nak h => exact Or.inr h
    | failed _ e => exact absurd hn (hfailed e)
    | _ => cases hn
  obtain ⟨seq, body, attempt, pc⟩ := x
  subst ho
  rcases hend with rfl | rfl <;> cases o <;> cases hn <;> exact ⟨rfl, rfl⟩

/-- Everything but one delivery, and but its message when that is acknowledged. -/
theorem Ctl.Holds.execTo {c : Ctl} {i : Nat} {x : Exec} (hi : c.execs[i]? = some x)
    (hnum : c.Numbered) (h : c.Holds j) (hne : j.id ≠ x.body.jobId) (n : ExecNext) :
    (c.execTo i x n).Holds j := by
  have hx : ∀ o' : Option Exec, ∀ y ∈ c.execs, y.body.jobId = j.id → y ∈ Actors.put c.execs i o' :=
    fun o' y hy hid => Actors.mem_put_of_ne hi hy fun heq => hne (by rw [← hid, heq])
  cases n with
  | goto pc => exact h.sub (hx (some { x with pc := pc })) (fun _ hm _ => hm) (fun _ hr => hr) fun _ hp _ => hp
  | settled acked =>
    refine h.sub (hx none) (fun m hm hid => ?_) (fun _ hr => hr) fun _ hp _ => List.mem_append_left _ hp
    simp only [Ctl.execTo]
    split_ifs
    · refine List.mem_filter.mpr ⟨hm, decide_eq_true fun hseq => hne ?_⟩
      rw [hnum.body x (List.mem_of_getElem? hi) m hm hseq.symm, hid]
    · exact hm

/-- A job that keeps its status is still held after an execution moved, or it handed it over. -/
theorem kept_exec {i : Nat} {x : Exec} (hi : w.ctl.execs[i]? = some x) {o : Outcome} {m : ExecMove}
    (hm : x.Moves w.db m) (ho : x.move env w.ctl.pool w.db o = m) (hnum : w.ctl.Numbered)
    (hh : w.HandsOver (.exec i o)) (hj : j ∈ w.db.jobs.rows)
    (hs : ((m.stmt.onJobs w.db.now).row j).status = j.status) (hold : w.ctl.Holds j) :
    World.Movable ⟨w.db.exec m.stmt, w.ctl.execTo i x m.next⟩ ((m.stmt.onJobs w.db.now).row j) := by
  by_cases hid : j.id = x.body.jobId
  · cases hn : m.next with
    | goto pc =>
      refine fun _ => Or.inl (Ctl.Holds.same ?_ (m.stmt.same w.db.now j) hs)
      exact Or.inl ⟨{ x with pc := pc }, Actors.mem_put_self hi, hid.symm⟩
    | settled acked =>
      obtain ⟨hsettles, hst⟩ := hm.settles_of ho hn
      rw [hst, Db.exec_read]
      exact hh x hi acked hsettles j hj hid
  · exact fun _ => Or.inl ((hold.execTo hi hnum hid m.next).same (m.stmt.same w.db.now j) hs)

/-- **A job that keeps its status is still held after a step, or the step handed it over.** -/
theorem kept_holds (h : World.Moves env w a st c) (hord : Ordered w) (hnum : w.ctl.Numbered)
    (hh : w.HandsOver a) (hj : j ∈ w.db.jobs.rows) (hact : j.status.isActive = true)
    (hs : ((st.onJobs w.db.now).row j).status = j.status) (hold : w.ctl.Holds j) :
    World.Movable ⟨w.db.exec st, c⟩ ((st.onJobs w.db.now).row j) := by
  have hfrom : c.Holds j → World.Movable ⟨w.db.exec st, c⟩ ((st.onJobs w.db.now).row j) :=
    fun hc _ => Or.inl (hc.same (st.same w.db.now j) hs)
  cases h with
  | tick | setPool | watch | watchSkip | watchEnds => exact hfrom hold
  | submit | advance | watchFail =>
    exact hfrom (hold.sub (fun _ hx _ => hx) (fun _ hm _ => hm) (fun _ hr => hr) fun _ hp _ =>
      List.mem_append_left _ hp)
  | pass i p hi r m hm hr => exact kept_pass hi hr hord hh hj hact hs hold
  | passDies i p hi =>
    by_cases hid : j.id ∈ p.pc.places
    · rw [Db.exec_read]
      exact hh p hi j hj hid
    · exact hfrom (hold.withoutPass hi hid)
  | deliver m hm hd => exact hfrom (hold.deliver hnum hm)
  | exec i x hi o m hm ho => exact kept_exec hi hm ho hnum hh hj hs hold
  | execDies i x hi =>
    by_cases hid : j.id = x.body.jobId
    · rw [Db.exec_read]
      exact hh x hi j hj hid
    · exact hfrom (hold.withoutExec hi hid)
  | cancelRun runId cs hcs =>
    exact hfrom (hold.sub (fun _ hx _ => hx) (fun _ hm _ => hm)
      (fun _ hr => List.mem_append_left _ hr) fun _ hp _ => hp)
  | cancelJobs i runId hi =>
    exact hfrom (hold.withoutCancel hi (Stmt.runId_ne_of_cancelJobs hact hs))
  | cancelDies i runId hi =>
    by_cases hid : j.runId = runId
    · rw [Db.exec_read]
      exact hh runId hi j hj hid
    · exact hfrom (hold.withoutCancel hi hid)

theorem World.Moves.cancelling (h : World.Moves env w a st c) {runId : String}
    (hst : st = .cancelRun runId) (haff : w.db.affectsRuns (.cancelRun runId) = true) :
    runId ∈ c.cancels := by
  cases h with
  | cancelRun runId' cs hcs =>
    cases hst
    rw [hcs, if_pos haff]
    exact List.mem_append_right _ (List.mem_singleton_self _)
  | pass i p hi r m hm hr => cases hm <;> cases hst
  | exec i x hi o m hm ho => cases hm <;> cases hst
  | _ => cases hst

/-- A job that stays queued is still watched after a step, or something else holds it. -/
theorem kept_watched (h : World.Moves env w a st c) (hh : w.HandsOver a) (hj : j ∈ w.db.jobs.rows)
    (hs : ((st.onJobs w.db.now).row j).status = j.status) (hw : w.db.Watched j) :
    w.ctl.Holds j ∨ World.Movable ⟨w.db.exec st, c⟩ ((st.onJobs w.db.now).row j) := by
  have hfrom : (∀ r ∈ w.db.runs.rows, r.id = j.runId → r.status.isTerminal = false →
      ((st.onRuns w.db.now).row r).status.isTerminal = false) →
      w.ctl.Holds j ∨ World.Movable ⟨w.db.exec st, c⟩ ((st.onJobs w.db.now).row j) :=
    fun hruns => Or.inr fun _ => Or.inr (hw.exec h.setsFinal (hs.trans hw.1) hruns)
  by_cases hkeep : ∀ r ∈ w.db.runs.rows, r.id = j.runId → r.status.isTerminal = false →
      ((st.onRuns w.db.now).row r).status.isTerminal = false
  · exact hfrom hkeep
  push Not at hkeep
  obtain ⟨r, hr, hid, ho, hover⟩ := hkeep
  have hm := st.runMoves w.db.now r
  generalize hstatus : ((st.onRuns w.db.now).row r).status = s at hm hover
  cases hm with
  | keep => exact absurd ho hover
  | set s e =>
    obtain ⟨statuses, ⟨i, r', rfl, hr', hp⟩, rfl⟩ := h.rollsUp rfl
    exact Or.inl ((hh _ hp).2 hr' statuses rfl (by simpa using hover) j hj hid.symm hw.1)
  | cancel _ =>
    have haff : w.db.affectsRuns (.cancelRun r.id) = true := by
      rw [Db.affectsRuns_cancelRun hr, ho]
      rfl
    refine Or.inr fun _ => Or.inl (Or.inr (Or.inr (Or.inl ?_)))
    rw [((Stmt.cancelRun r.id).same w.db.now j).runId, ← hid]
    exact h.cancelling rfl haff

end Kept

/-! ## A step strands no job exactly when it hands over -/

section Step

variable {env : Env} {w : World} {a : Act} {st : Stmt} {c : Ctl} {j : JobRow}

/-- A job that is queued is placed by the pass that queued it. -/
theorem World.Moves.placed (h : World.Moves env w a st c) (hst : st = .queueJob j.id)
    (haff : w.db.affectsJobs (.queueJob j.id) = true) : ∃ p ∈ c.passes, j.id ∈ p.pc.places := by
  cases h with
  | pass i p hi r m hm hr =>
    cases hm with
    | queue snap s todo hpc plan route hd ha =>
      exact ⟨_, Actors.mem_put_self hi, congrArg some (Stmt.queueJob.inj hst)⟩
    | lost snap s todo hpc plan route hd ha =>
      rw [Stmt.queueJob.inj hst, haff] at ha
      cases ha
    | _ => cases hst
  | exec i x hi o m hm ho => cases hm <;> cases hst
  | _ => cases hst

/-- A job that is started is held by the execution that started it. -/
theorem World.Moves.started (h : World.Moves env w a st c)
    (hst : (∃ r n, st = .claimJob j.id r n) ∨ ∃ r s f n, st = .startJob j.id r s f n)
    (haff : w.db.affectsJobs st = true) : ∃ x ∈ c.execs, x.body.jobId = j.id := by
  cases h with
  | exec i x hi o m hm ho =>
    cases hm with
    | claimed =>
      rcases hst with ⟨r, n, hst⟩ | ⟨r, s, f, n, hst⟩
      · exact ⟨_, Actors.mem_put_self hi, (Stmt.claimJob.inj hst).1⟩
      · cases hst
    | started =>
      rcases hst with ⟨r, n, hst⟩ | ⟨r, s, f, n, hst⟩
      · cases hst
      · exact ⟨_, Actors.mem_put_self hi, (Stmt.startJob.inj hst).1⟩
    | claimLost _ _ _ ha | startLost _ _ _ _ _ ha =>
      rw [ha] at haff
      cases haff
    | _ => rcases hst with ⟨r, n, hst⟩ | ⟨r, s, f, n, hst⟩ <;> cases hst
  | pass i p hi r m hm hr =>
    cases hm <;> rcases hst with ⟨r, n, hst⟩ | ⟨r, s, f, n, hst⟩ <;> cases hst
  | _ => rcases hst with ⟨r, n, hst⟩ | ⟨r, s, f, n, hst⟩ <;> cases hst

theorem notStranded_moves (h : World.Moves env w a st c) (hord : Ordered w) (hnum : w.ctl.Numbered)
    (hh : w.HandsOver a) (hn : w.NotStranded) : World.NotStranded ⟨w.db.exec st, c⟩ := by
  intro j' hj' hact
  rcases Db.mem_exec_jobs.mp hj' with ⟨j, hj, rfl⟩ | hnew
  · by_cases hs : ((st.onJobs w.db.now).row j).status = j.status
    · have hold : j.status.isActive = true := hs ▸ hact
      rcases hn j hj hold with hheld | hwatched
      · exact kept_holds h hord hnum hh hj hold hs hheld hact
      · rcases kept_watched h hh hj hs hwatched with hheld | hmov
        · exact kept_holds h hord hnum hh hj hold hs hheld hact
        · exact hmov hact
    · have haff : (st.onJobs w.db.now).hits j = true → w.db.affectsJobs st = true := fun hhits =>
        (w.db.jobs.affected_iff _).mpr ⟨j, hj, hhits⟩
      have hhits : (st.onJobs w.db.now).hits j = true := by
        by_contra hno
        rw [Table.Update.row_of_not_hits (by simpa using hno)] at hs
        exact hs rfl
      have hid := (st.same w.db.now j).id
      have hm := st.moves w.db.now j
      generalize hstatus : ((st.onJobs w.db.now).row j).status = s at hm hact hs
      cases hm with
      | keep => exact absurd rfl hs
      | queue hp =>
        obtain ⟨p, hp, hplace⟩ := h.placed rfl (haff hhits)
        exact Or.inl (Or.inr (Or.inr (Or.inr ⟨hstatus, p, hp, by rw [hid]; exact hplace⟩)))
      | claim _ r n =>
        obtain ⟨x, hx, hxid⟩ := h.started (Or.inl ⟨r, n, rfl⟩) (haff hhits)
        exact Or.inl (Or.inl ⟨x, hx, hxid.trans hid.symm⟩)
      | start _ r s f n =>
        obtain ⟨x, hx, hxid⟩ := h.started (Or.inr ⟨r, s, f, n, rfl⟩) (haff hhits)
        exact Or.inl (Or.inl ⟨x, hx, hxid.trans hid.symm⟩)
      | unqueue | cancel => cases hact
      | set s e =>
        have hfinal := h.setsFinal _ s e rfl
        rw [s.isTerminal_of_isActive hact] at hfinal
        cases hfinal
  · rw [(Db.inserted_spec hnew).1] at hact
    cases hact

theorem Exec.move_of_settles {x : Exec} {o : Outcome} {pool : Pool} {db : Db} {acked : Bool}
    (h : x.settles o = some acked) : x.move env pool db o = ⟨.read, .settled acked⟩ := by
  obtain ⟨seq, body, attempt, pc⟩ := x
  cases pc with
  | ack => cases o <;> cases h <;> rfl
  | nak => cases o <;> cases h <;> rfl
  | _ => cases h

/-- A pass that lets go of a job does nothing else to it. -/
theorem Pass.move_of_drops {p : Pass} {r : Reply} {pool : Pool} {db : Db} {jobId : String}
    (h : p.drops r = some jobId) : (p.move env pool db r).stmt = .read ∧
      (p.move env pool db r).send = none ∧
      ∀ pc, (p.move env pool db r).next = some pc → pc.places = none := by
  obtain ⟨runId, pc⟩ := p
  cases pc with
  | publish snap job route msg todo =>
    cases r with
    | duplicate => exact ⟨rfl, rfl, by rintro pc ⟨⟩; rfl⟩
    | _ => cases h
  | unqueue snap job todo =>
    cases r with
    | fail => exact ⟨rfl, rfl, by rintro pc ⟨⟩; rfl⟩
    | _ => cases h
  | _ => cases h

theorem Pass.move_of_read {p : Pass} {r : Reply} {pool : Pool} {db : Db} {statuses : List JobStatus}
    (h : p.pc.read = some statuses) (hfail : r ≠ .fail) :
    p.move env pool db r = ⟨.setRunStatus p.runId (rollUp statuses) none, none, none⟩ := by
  obtain ⟨runId, pc⟩ := p
  cases pc with
  | setRunStatus ss =>
    cases h
    cases r with
    | fail => exact absurd rfl hfail
    | ok | duplicate | unacked => rfl
  | _ => cases h

/-- The watchdog finds no job of a run that is over. -/
theorem Db.Watched.run_not_over {db : Db} {runId : String} {s : RunStatus} {e : Option String}
    (h : (db.exec (.setRunStatus runId s e)).Watched j) (hrun : j.runId = runId) :
    s.isTerminal = false := by
  obtain ⟨-, -, -, r', hr', hid, ho⟩ := h
  obtain ⟨r, hr, rfl⟩ := (Table.mem_update _ _).mp hr'
  have hid' : r.id = runId := ((Table.Update.key_row _ r).symm.trans hid).trans hrun
  rwa [Table.Update.row_of_hits (by simpa [Stmt.onRuns, Store.setRunStatus] using hid')] at ho

theorem handsOver_of (h : World.Moves env w a st c) (hn : World.NotStranded ⟨w.db.exec st, c⟩) :
    w.HandsOver a := by
  cases h with
  | pass i p hi r m hm hr =>
    intro p' hp'
    obtain rfl : p = p' := Option.some.inj (hi.symm.trans hp')
    subst hr
    refine ⟨fun j hj hdrop hact => ?_, fun hfail statuses hread hover j hj hrun hq => ?_⟩
    · obtain ⟨hst, hsend, hnext⟩ := Pass.move_of_drops hdrop
      rw [hst, Db.exec_read] at hn
      refine (hn j hj hact).imp_left fun hheld => hheld.of_passTo hi hsend fun pc hpc hid => ?_
      rw [hnext pc hpc] at hid
      cases hid
    · rw [Pass.move_of_read hread hfail] at hn
      have hjobs : (w.db.exec (.setRunStatus p.runId (rollUp statuses) none)).jobs = w.db.jobs :=
        w.db.jobs.update_none
      rcases hn j (by rw [hjobs]; exact hj) (by rw [hq]; rfl) with hheld | hwatched
      · refine (hheld.of_passTo hi rfl fun _ h => by cases h).sub (fun _ hx _ => hx)
          (fun _ hm _ => hm) (fun _ hr => hr) fun _ hp _ => Actors.mem_put_none hp
      · rw [hwatched.run_not_over hrun] at hover
        cases hover
  | passDies i p hi =>
    intro p' _ j hj _
    rw [Db.exec_read] at hn
    exact hn j hj
  | exec i x hi o m hm ho =>
    intro x' hx' acked hsettles j hj _
    obtain rfl : x = x' := Option.some.inj (hi.symm.trans hx')
    rw [← ho, Exec.move_of_settles hsettles, Db.exec_read] at hn
    exact hn j hj
  | execDies i x hi =>
    intro x' _ j hj _
    rw [Db.exec_read] at hn
    exact hn j hj
  | cancelDies i runId hi =>
    intro runId' _ j hj _
    rw [Db.exec_read] at hn
    exact hn j hj
  | watchEnds i x hi a ha =>
    rcases ha with rfl | ⟨r, rfl, -⟩ <;> trivial
  | _ => trivial

end Step

/-- **A run strands no job exactly when every step of it that takes something away leaves its job to
something else.** -/
theorem notStranded_iff (env : Env) (now : Nat) (pool : Pool) (as : List Act) :
    (machine env).Throughout (fun _ _ w' => w'.NotStranded) (World.start now pool) as ↔
      (machine env).Throughout (fun w a _ => w.HandsOver a) (World.start now pool) as := by
  refine Machine.throughout_inv_iff (Machine.Reachable.init ⟨now, pool, rfl⟩) ?_ ?_
  · intro j hj
    cases hj
  · intro w a w' hreach hn hstep
    have hnum : w.ctl.Numbered := by
      refine Machine.Reachable.inv (fun w => w.ctl.Numbered) ?_ ?_ hreach
      · rintro w ⟨now, pool, rfl⟩
        refine ⟨?_, ?_, ?_, ?_⟩ <;> intro x hx <;> cases hx
      · intro w a w' _ hw _ hstep
        obtain ⟨st, c, -, hm, rfl⟩ := step_cases hstep
        exact numbered_moves hm hw
    obtain ⟨st, c, -, hm, rfl⟩ := step_cases hstep
    exact ⟨handsOver_of hm, fun hh => notStranded_moves hm (ordered_reachable hreach) hnum hh hn⟩

/-! ## Four crashes -/

section Decide

variable (c : Ctl) (db : Db) (w : World) (j : JobRow)

instance : Decidable (c.Holds j) :=
  inferInstanceAs (Decidable ((∃ x ∈ c.execs, _) ∨ (∃ m ∈ c.msgs, _) ∨ _ ∨ _ ∧ ∃ p ∈ c.passes, _))

instance : Decidable (db.Watched j) :=
  inferInstanceAs (Decidable (_ ∧ _ ∧ _ ∧ ∃ r ∈ db.runs.rows, _))

instance : Decidable (w.Movable j) := inferInstanceAs (Decidable (_ → _ ∨ _))

instance : Decidable w.NotStranded := inferInstanceAs (Decidable (∀ j ∈ w.db.jobs.rows, w.Movable j))

end Decide

/-- Every delivery of a job dies after it has claimed the job. -/
def crashes : List Act :=
  .submit "r" .plain .single ::
    (schedule 1 1 ++ (List.replicate maxDeliver
      [.deliver 0, .exec 0 .ok, .exec 0 .ok, .execDies 0]).flatten)

/-- The job is left running, with no delivery to come and nothing that looks at it. -/
theorem crashes_strand : ¬ ∀ (env : Env) (now : Nat) (pool : Pool) (as : List Act),
    (machine env).Throughout (fun _ _ w' => w'.NotStranded) (World.start now pool) as := by
  intro h
  exact absurd (h .plain 0 .single crashes) (by decide)

end HeyoCi
