import HeyoCi.Sched.Order
import HeyoCi.Sched.Scope

/-!
# A run's status and its jobs

`roll_up_run` reads the statuses of the jobs and then writes the status of the run, so a roll-up that
is overtaken by another writes what was true before.

* `Ctl.Owed`: somebody still has to write the status of a run, and will write this;
* `World.Tallied`: a run whose jobs are over says so, or is owed a roll-up;
* `World.Followed`: nobody ends without the roll-up it owes; `World.Current`: the last roll-up of a
  run is not an old one;
* **`tallied_moves`**, **`status_agrees`**: under both laws, a run left alone agrees with its jobs.
-/

namespace HeyoCi

/-- The statuses a pass has read for its roll-up. -/
def PassPc.read : PassPc → Option (List JobStatus)
  | .setRunStatus statuses => some statuses
  | _ => none

/-- An error here is caught. -/
def PassPc.catches : PassPc → Bool
  | .publish .. | .unqueue .. => true
  | _ => false

def ExecPc.isAck : ExecPc → Bool
  | .ack => true
  | _ => false

/-- The pass still writes the run's status, and what it has read for it amounts to `v`. -/
def Pass.Owes (v : RunStatus) (runId : String) (p : Pass) : Prop :=
  p.runId = runId ∧ ∀ statuses ∈ p.pc.read, rollUp statuses = v

/-- The job of the execution is over, and `advance_run` is called next. -/
def Exec.Owes (runId : String) (x : Exec) : Prop := x.body.runId = runId ∧ x.pc.isAck = true

namespace Ctl

variable (c : Ctl)

/-- Somebody still has to write the status of a run, and will write `v` unless the jobs change. -/
def Owed (v : RunStatus) (runId : String) : Prop :=
  (∃ p ∈ c.passes, p.Owes v runId) ∨ ∃ x ∈ c.execs, x.Owes runId

/-- A call of `advance_run` or of `cancel_run`, or an execution whose job is over, is on the run. -/
def InProgress (runId : String) : Prop :=
  (∃ p ∈ c.passes, p.runId = runId) ∨ (∃ x ∈ c.execs, x.Owes runId) ∨ runId ∈ c.cancels

def withoutPass (i : Nat) : Ctl := { c with passes := Actors.put c.passes i none }

def withoutExec (i : Nat) : Ctl := { c with execs := Actors.put c.execs i none }

end Ctl

namespace World

variable (w : World)

/-- The row of a run says what its jobs say. -/
def Told (runId : String) : Prop :=
  ∀ r ∈ w.db.runs.rows, r.id = runId → r.status = w.db.rolled runId

/-- A run whose jobs are over says so, or somebody has to write it. -/
def Tallied (runId : String) : Prop :=
  w.db.AllTerminal runId → w.Told runId ∨ w.ctl.Owed (w.db.rolled runId) runId

/-- Every run whose jobs are over and on which nothing is in progress has the status of its jobs. -/
def Agrees : Prop := ∀ r ∈ w.db.runs.rows, w.db.AllTerminal r.id → ¬ w.ctl.InProgress r.id →
  r.status = w.db.rolled r.id

/-- Whoever ends early leaves its run told, or to somebody else. -/
def Followed : Act → Prop
  | .passDies i => ∀ p ∈ w.ctl.passes[i]?, Tallied ⟨w.db, w.ctl.withoutPass i⟩ p.runId
  | .pass i .fail => ∀ p ∈ w.ctl.passes[i]?, p.pc.catches = false →
      Tallied ⟨w.db, w.ctl.withoutPass i⟩ p.runId
  | .execDies i => ∀ x ∈ w.ctl.execs[i]?, Tallied ⟨w.db, w.ctl.withoutExec i⟩ x.body.runId
  | _ => True

/-- The last roll-up of a run whose jobs are over is a current one, and the jobs of a run are only
cancelled while the run is. -/
def Current : Act → Prop
  | .pass i r => ∀ p ∈ w.ctl.passes[i]?, ∀ statuses ∈ p.pc.read, r ≠ .fail →
      w.db.AllTerminal p.runId → rollUp statuses = w.db.rolled p.runId ∨
        (w.ctl.withoutPass i).Owed (w.db.rolled p.runId) p.runId
  | .cancelJobs i => ∀ runId ∈ w.ctl.cancels[i]?, w.db.AllTerminal runId ∨
      (∀ r ∈ w.db.runs.rows, r.id = runId → r.status = .cancelled) ∨ w.ctl.Owed .cancelled runId
  | _ => True

end World

/-! ## Who is still there -/

section Owed

variable {c c' : Ctl} {v : RunStatus} {runId : String}

theorem Ctl.Owed.inProgress (h : c.Owed v runId) : c.InProgress runId := by
  rcases h with ⟨p, hp, hrun, -⟩ | hx
  · exact Or.inl ⟨p, hp, hrun⟩
  · exact Or.inr (Or.inl hx)

theorem Ctl.Owed.mono (h : c.Owed v runId) (hp : ∀ p ∈ c.passes, p.runId = runId → p ∈ c'.passes)
    (hx : ∀ x ∈ c.execs, x.Owes runId → x ∈ c'.execs ∨ c'.Owed v runId) : c'.Owed v runId := by
  rcases h with ⟨p, hmem, ho⟩ | ⟨x, hmem, ho⟩
  · exact Or.inl ⟨p, hp p hmem ho.1, ho⟩
  · rcases hx x hmem ho with hx | hx
    · exact Or.inr ⟨x, hx, ho⟩
    · exact hx

/-- A call of `advance_run` is owed its roll-up. -/
theorem Ctl.owed_spawn (c : Ctl) (v : RunStatus) (runId : String) : (c.spawn runId).Owed v runId :=
  Or.inl ⟨⟨runId, .jobsOf⟩, List.mem_append_right _ (List.mem_singleton_self _), rfl, fun _ h => by
    cases h⟩

end Owed

/-! ## Every step keeps the tally -/

section Step

variable {env : Env} {w : World} {a : Act} {st : Stmt} {c : Ctl} {runId : String}

/-- A step outside a run keeps its tally, when whoever owes is still there. -/
theorem World.Tallied.outside (ht : w.Tallied runId) (hst : st.Outside w.db runId)
    (ho : ∀ v, w.ctl.Owed v runId → c.Owed v runId) : Tallied ⟨w.db.exec st, c⟩ runId := by
  intro hall
  simp only [Told, Db.rolled_outside hst]
  rcases ht ((Db.allTerminal_outside hst).mp hall) with htold | howed
  · refine Or.inl fun r' hr' hid => ?_
    rcases Db.mem_exec_runs hr' with ⟨r, hr, rfl⟩ | ⟨-, -, req, plan, hcreate, -⟩
    · have hid : r.id = runId := (Table.Update.key_row _ r).symm.trans hid
      rw [hst.runs r hr hid, htold r hr hid]
    · rw [hid] at hcreate
      exact absurd hcreate (hst.fresh req plan)
  · exact Or.inr (ho _ howed)

theorem Db.rolled_congr {db db' : Db} (h : db'.jobs = db.jobs) : db'.rolled runId = db.rolled runId := by
  simp only [rolled, jobStatuses, h]

theorem Db.allTerminal_congr {db db' : Db} (h : db'.jobs = db.jobs) :
    db'.AllTerminal runId ↔ db.AllTerminal runId := by
  simp only [AllTerminal, h]

/-- A pass ends by an error or by its roll-up. -/
theorem Pass.move_ends {pool : Pool} {db : Db} {p : Pass} {r : Reply}
    (h : (p.move env pool db r).next = none) :
    (r = .fail ∧ p.pc.catches = false ∧ (p.move env pool db r).stmt = .read) ∨
      (r ≠ .fail ∧ ∃ statuses ∈ p.pc.read,
        (p.move env pool db r).stmt = .setRunStatus p.runId (rollUp statuses) none) := by
  obtain ⟨runId, pc⟩ := p
  cases pc with
  | publish | unqueue => cases r <;> cases h
  | setRunStatus statuses =>
    cases r with
    | fail => exact Or.inl ⟨rfl, rfl, rfl⟩
    | ok | duplicate | unacked => exact Or.inr ⟨nofun, statuses, rfl, rfl⟩
  | jobsOf | needsContext | getRun | rollUp =>
    cases r with
    | fail => exact Or.inl ⟨rfl, rfl, rfl⟩
    | ok | duplicate | unacked => cases h
  | next snap todo =>
    have hjob : ∀ j rest, (Pass.job env pool db runId snap j rest).next ≠ none := by
      intro j rest hn
      simp only [Pass.job] at hn
      split at hn
      · cases hn
      · cases hn
      · split_ifs at hn
    cases r with
    | fail => exact Or.inl ⟨rfl, rfl, rfl⟩
    | ok | duplicate | unacked =>
      cases todo with
      | nil => cases h
      | cons j rest => exact absurd h (hjob j rest)

/-- What a pass has just read for its roll-up is current. -/
theorem Pass.Moves.read_current {pool : Pool} {db : Db} {p : Pass} {m : PassMove}
    (hm : p.Moves env pool db m) {pc : PassPc} (hn : m.next = some pc) :
    ∀ statuses ∈ pc.read, HeyoCi.rollUp statuses = (db.exec m.stmt).rolled p.runId := by
  cases hm with
  | rollUp h =>
    cases hn
    rintro statuses hs
    obtain rfl := Option.some.inj hs
    rw [Db.exec_read]
    rfl
  | fails | setRunStatus => cases hn
  | _ =>
    cases hn
    rintro statuses hs
    cases hs

theorem tallied_pass {i : Nat} {p : Pass} (hi : w.ctl.passes[i]? = some p) {r : Reply}
    {m : PassMove} (hm : p.Moves env w.ctl.pool w.db m) (hr : p.move env w.ctl.pool w.db r = m)
    (hw : Ordered w) (hf : w.Followed (.pass i r)) (hc : w.Current (.pass i r))
    (ht : w.Tallied runId) :
    World.Tallied ⟨w.db.exec m.stmt, w.ctl.passTo i p m⟩ runId := by
  by_cases hrun : p.runId = runId
  · subst hrun
    cases hn : m.next with
    | some pc =>
      refine fun _ => Or.inr (Or.inl ⟨⟨p.runId, pc⟩, ?_, rfl, hm.read_current hn⟩)
      simp only [Ctl.passTo, hn]
      exact Actors.mem_put_self hi
    | none =>
      have howed : ∀ v, (w.ctl.withoutPass i).Owed v p.runId →
          (w.ctl.passTo i p m).Owed v p.runId := by
        intro v ho
        refine ho.mono (fun q hq _ => ?_) fun x hx _ => Or.inl ?_
        · simpa [Ctl.passTo, hn, Ctl.withoutPass] using hq
        · simpa [Ctl.passTo, Ctl.withoutPass] using hx
      subst hr
      rcases Pass.move_ends hn with ⟨rfl, hcatch, hst⟩ | ⟨hr, statuses, hread, hst⟩
      · rw [hst, Db.exec_read]
        exact fun hall => (hf p hi hcatch hall).imp_right (howed _)
      · rw [hst]
        have hjobs : (w.db.exec (.setRunStatus p.runId (rollUp statuses) none)).jobs = w.db.jobs :=
          w.db.jobs.update_none
        intro hall
        simp only [World.Told, Db.rolled_congr hjobs]
        rcases hc p hi statuses hread hr ((Db.allTerminal_congr hjobs).mp hall) with hcur | ho
        · refine Or.inl fun r' hr' hid => ?_
          obtain ⟨r₀, hr₀, rfl⟩ := (Table.mem_update _ _).mp hr'
          have hid : r₀.id = p.runId := (Table.Update.key_row _ r₀).symm.trans hid
          rw [Table.Update.row_of_hits (by simpa [Stmt.onRuns, Store.setRunStatus] using hid)]
          exact hcur
        · exact Or.inr (howed _ ho)
  · refine ht.outside (hm.outside (hw.ctl.passes p (List.mem_of_getElem? hi)) hrun) fun v ho => ?_
    refine ho.mono (fun q hq hqr => ?_) fun x hx _ => Or.inl (by simpa [Ctl.passTo] using hx)
    exact Actors.mem_put_of_ne hi hq fun h => hrun (h ▸ hqr)

/-- Past its job, an execution ends. -/
theorem Exec.Moves.settles {db : Db} {x : Exec} {m : ExecMove} (hm : x.Moves db m)
    (h : x.pc.isAck = true) : ∃ acked, m.next = .settled acked := by
  have hpc : x.pc = .ack := by
    cases hx : x.pc <;> rw [hx] at h <;> first | rfl | cases h
  cases hm with
  | settle _ acked => exact ⟨acked, rfl⟩
  | failed hin => rw [hpc] at hin; cases hin
  | work hw => rw [hpc] at hw; cases hw
  | _ => simp_all

/-- An execution that finishes its job goes on to the acknowledgement. -/
theorem Exec.Moves.finishes {db : Db} {x : Exec} {m : ExecMove} (hm : x.Moves db m)
    (h : m.stmt.finishes = true) : m.next = .goto .ack := by
  cases hm with
  | giveUp | finish => rfl
  | _ => cases h

theorem tallied_exec {i : Nat} {x : Exec} (hi : w.ctl.execs[i]? = some x) {m : ExecMove}
    (hm : x.Moves w.db m) (hw : Ordered w) (ht : w.Tallied runId) :
    World.Tallied ⟨w.db.exec m.stmt, w.ctl.execTo i x m.next⟩ runId := by
  by_cases hrun : x.body.runId = runId
  · subst hrun
    cases hn : m.next with
    | settled acked =>
      refine fun _ => Or.inr (Or.inl ⟨⟨x.body.runId, .jobsOf⟩, ?_, rfl, fun _ h => by cases h⟩)
      exact List.mem_append_right _ (List.mem_singleton_self _)
    | goto pc =>
      by_cases hack : pc.isAck = true
      · exact fun _ => Or.inr (Or.inr ⟨_, Actors.mem_put_self hi, rfl, hack⟩)
      · have hfin : m.stmt.finishes = false := by
          by_contra hf
          rw [hm.finishes (by simpa using hf)] at hn
          cases hn
          exact hack rfl
        rcases Stmt.outside_or_open hfin with hout | hopen
        · refine ht.outside hout fun v ho => ho.mono (fun _ hp _ => hp) fun y hy hyo => Or.inl ?_
          refine Actors.mem_put_of_ne (o := some { x with pc := pc }) hi hy fun h => ?_
          obtain ⟨acked, hs⟩ := hm.settles (h ▸ hyo.2)
          rw [hs] at hn
          cases hn
        · exact fun hall => absurd hall hopen
  · refine ht.outside (hm.outside (hw.ctl.execs x (List.mem_of_getElem? hi)) hrun) fun v ho => ?_
    have hne : ∀ y ∈ w.ctl.execs, y.Owes runId → y ≠ x := fun y _ hy h => hrun (h ▸ hy.1)
    cases hn : m.next with
    | goto pc =>
      refine ho.mono (fun _ hp _ => hp) fun y hy hyo => Or.inl ?_
      change y ∈ Actors.put w.ctl.execs i (some { x with pc := pc })
      exact Actors.mem_put_of_ne hi hy (hne y hy hyo)
    | settled acked =>
      exact ho.mono (fun _ hp _ => List.mem_append_left _ hp) fun y hy hyo =>
        Or.inl (Actors.mem_put_of_ne (o := none) hi hy (hne y hy hyo))

/-- The first statement of a cancellation meets a run whose jobs are over only while it is owed. -/
theorem tallied_cancelRun {runId' : String} {cs : List String} (ht : w.Tallied runId) :
    World.Tallied ⟨w.db.exec (.cancelRun runId'), { w.ctl with cancels := cs }⟩ runId := by
  have hjobs : (w.db.exec (.cancelRun runId')).jobs = w.db.jobs := w.db.jobs.update_none
  intro hall
  have hall : w.db.AllTerminal runId := (Db.allTerminal_congr hjobs).mp hall
  simp only [World.Told, Db.rolled_congr hjobs]
  rcases ht hall with htold | howed
  · refine Or.inl fun r' hr' hid => ?_
    obtain ⟨r, hr, rfl⟩ := (Table.mem_update _ _).mp hr'
    have hs := htold r hr ((Table.Update.key_row _ r).symm.trans hid)
    rw [Table.Update.row_of_not_hits, hs]
    simp [Stmt.onRuns, Store.cancelRun, hs, Db.rolled_terminal hall]
  · exact Or.inr howed

theorem tallied_cancelJobs {i : Nat} {runId' : String} (hi : w.ctl.cancels[i]? = some runId')
    (hc : w.Current (.cancelJobs i)) {cs : List String} (ht : w.Tallied runId) :
    World.Tallied ⟨w.db.exec (.cancelJobs runId'), { w.ctl with cancels := cs }⟩ runId := by
  by_cases hout : ∃ j ∈ w.db.jobs.rows, j.runId = runId ∧
      (Store.cancelJobs w.db.now runId').hits j = true
  · obtain ⟨j, hj, rfl, hhits⟩ := hout
    obtain ⟨rfl, hopen⟩ : j.runId = runId' ∧ j.status.isTerminal = false := by
      simpa [Store.cancelJobs] using hhits
    have hrow : (Store.cancelJobs w.db.now j.runId).row j ∈ (w.db.exec (.cancelJobs j.runId)).jobs.rows :=
      (Table.mem_update _ _).mpr ⟨j, hj, rfl⟩
    have hrolled : (w.db.exec (.cancelJobs j.runId)).rolled j.runId = .cancelled := by
      have hrun : ((Store.cancelJobs w.db.now j.runId).row j).runId = j.runId :=
        (Stmt.same w.db.now (.cancelJobs j.runId) j).runId
      rw [← Db.rolled_of_cancelled hrow (by rw [Table.Update.row_of_hits hhits]; rfl), hrun]
    intro _
    simp only [World.Told, hrolled]
    rcases hc j.runId hi with hall | hruns | howed
    · rw [hall j hj rfl] at hopen
      cases hopen
    · refine Or.inl fun r' hr' hid => ?_
      have hsame : (w.db.exec (.cancelJobs j.runId)).runs = w.db.runs := w.db.runs.update_none
      rw [hsame] at hr'
      exact hruns r' hr' hid
    · exact Or.inr howed
  · refine ht.outside ⟨fun j hj hrun => ?_, fun _ _ _ => rfl, fun _ _ h => by cases h⟩ fun _ => id
    have hnot : (Store.cancelJobs w.db.now runId').hits j = false := by
      by_contra hh
      exact hout ⟨j, hj, hrun, by simpa using hh⟩
    exact congrArg JobRow.status (Table.Update.row_of_not_hits hnot)

/-- A call of `advance_run` on a run that a statement is outside of, or that it is on. -/
theorem World.Tallied.spawn {runId' : String} (ht : w.Tallied runId)
    (hst : runId' ≠ runId → st.Outside w.db runId) {c : Ctl} (hp : c.passes = w.ctl.passes)
    (hx : c.execs = w.ctl.execs) : Tallied ⟨w.db.exec st, c.spawn runId'⟩ runId := by
  by_cases hrun : runId' = runId
  · subst hrun
    exact fun _ => Or.inr (c.owed_spawn _ _)
  · refine ht.outside (hst hrun) fun v ho => ho.mono (fun p hmem _ => ?_) fun x hmem _ => Or.inl ?_
    · exact List.mem_append_left _ (by rwa [hp])
    · rw [← hx] at hmem
      exact hmem

/-- **Every step that follows the laws keeps the tally.** -/
theorem tallied_moves (h : World.Moves env w a st c) (hw : Ordered w) (hf : w.Followed a)
    (hc : w.Current a) (ht : w.Tallied runId) : World.Tallied ⟨w.db.exec st, c⟩ runId := by
  have hread : World.Tallied ⟨w.db.exec .read, w.ctl⟩ runId :=
    ht.outside Stmt.outside_read fun _ => id
  cases h with
  | tick d => exact ht.outside ⟨fun _ _ _ => rfl, fun _ _ _ => rfl, fun _ _ h => by cases h⟩ fun _ => id
  | setPool | watch | watchSkip | watchEnds => exact hread
  | submit runId' req plan hs =>
    refine ht.spawn (fun hne => ⟨fun _ _ _ => rfl, fun _ _ _ => rfl, fun _ _ hst => ?_⟩) rfl rfl
    exact hne (Stmt.createRun.inj hst).1
  | advance runId' r hr => exact ht.spawn (fun _ => Stmt.outside_read) rfl rfl
  | pass i p hi r m hm hr => exact tallied_pass hi hm hr hw hf hc ht
  | passDies i p hi =>
    by_cases hrun : p.runId = runId
    · rw [Db.exec_read, ← hrun]
      exact hf p hi
    · refine ht.outside Stmt.outside_read fun v ho => ho.mono (fun q hq hqr => ?_) fun x hx _ => Or.inl hx
      exact Actors.mem_put_of_ne (o := none) hi hq fun heq => hrun (heq ▸ hqr)
  | deliver m hm hd =>
    refine ht.outside Stmt.outside_read fun v ho => ho.mono (fun _ hq _ => hq) fun x hx _ => Or.inl ?_
    exact List.mem_append_left _ hx
  | exec i x hi o m hm ho => exact tallied_exec hi hm hw ht
  | execDies i x hi =>
    by_cases hrun : x.body.runId = runId
    · rw [Db.exec_read, ← hrun]
      exact hf x hi
    · refine ht.outside Stmt.outside_read fun v ho => ho.mono (fun _ hq _ => hq) fun y hy hyo => Or.inl ?_
      exact Actors.mem_put_of_ne (o := none) hi hy fun heq => hrun (heq ▸ hyo.1)
  | cancelRun runId' cs hcs => exact tallied_cancelRun ht
  | cancelJobs i runId' hi => exact tallied_cancelJobs hi hc ht
  | cancelDies i runId' hi => exact hread
  | watchFail i x hi job todo hx r =>
    refine ht.spawn (fun hne => ?_) rfl rfl
    have hjob := hw.ctl.watches x (List.mem_of_getElem? hi) job (by rw [hx]; exact List.mem_cons_self)
    exact Stmt.outside_of_target rfl hjob.2 hne

end Step

/-! ## Over runs -/

/-- **Where every change is followed by a roll-up and the last roll-up of a run is a current one, a
run whose jobs are over agrees with them.** -/
theorem status_agrees (env : Env) (now : Nat) (pool : Pool) (as : List Act)
    (h : (machine env).Throughout (fun w a _ => w.Followed a ∧ w.Current a) (World.start now pool) as)
    {w : World} (hrun : (machine env).run (World.start now pool) as = some w) : w.Agrees := by
  have hreach : (machine env).Reachable ((machine env).Lawful _) w :=
    ⟨_, ⟨now, pool, rfl⟩, h.reach hrun⟩
  have htallied : ∀ runId, w.Tallied runId := by
    refine Machine.Reachable.inv (fun w => ∀ runId, w.Tallied runId) ?_ ?_ hreach
    · rintro w ⟨now, pool, rfl⟩ runId _
      refine Or.inl fun r hr _ => ?_
      cases hr
    · intro w a w' hr ht hlaw hstep runId
      obtain ⟨hf, hc⟩ := hlaw w' hstep
      obtain ⟨st, c, -, hm, rfl⟩ := step_cases hstep
      exact tallied_moves hm (ordered_reachable hr) hf hc (ht runId)
  intro r hr hall hidle
  rcases htallied r.id hall with htold | howed
  · exact htold r hr rfl
  · exact absurd howed.inProgress hidle

/-! ## Deciding the laws on a run -/

section Decide

variable (v : RunStatus) (runId : String) (p : Pass) (x : Exec) (c : Ctl) (w : World)

instance : Decidable (p.Owes v runId) :=
  inferInstanceAs (Decidable (_ ∧ ∀ statuses ∈ p.pc.read, rollUp statuses = v))

instance : Decidable (x.Owes runId) := inferInstanceAs (Decidable (_ ∧ x.pc.isAck = true))

instance : Decidable (c.Owed v runId) :=
  inferInstanceAs (Decidable ((∃ p ∈ c.passes, p.Owes v runId) ∨ ∃ x ∈ c.execs, x.Owes runId))

instance : Decidable (c.InProgress runId) :=
  inferInstanceAs (Decidable ((∃ p ∈ c.passes, p.runId = runId) ∨ _ ∨ _))

instance : Decidable (w.Told runId) :=
  inferInstanceAs (Decidable (∀ r ∈ w.db.runs.rows, r.id = runId → r.status = w.db.rolled runId))

instance : Decidable (w.Tallied runId) :=
  inferInstanceAs (Decidable (w.db.AllTerminal runId → _ ∨ _))

instance : Decidable w.Agrees := inferInstanceAs (Decidable (∀ r ∈ w.db.runs.rows, _ → _ → _))

instance (a : Act) : Decidable (w.Followed a) := match a with
  | .passDies i => inferInstanceAs (Decidable (∀ p ∈ w.ctl.passes[i]?, _))
  | .pass i .fail => inferInstanceAs (Decidable (∀ p ∈ w.ctl.passes[i]?, p.pc.catches = false → _))
  | .execDies i => inferInstanceAs (Decidable (∀ x ∈ w.ctl.execs[i]?, _))
  | .tick _ | .setPool _ | .submit .. | .advance _ | .pass _ .ok | .pass _ .duplicate
  | .pass _ .unacked | .deliver _ | .exec .. | .cancelRun _ | .cancelJobs _ | .cancelDies _ | .watch
  | .watchJob .. | .watchDies _ => .isTrue trivial

instance (a : Act) : Decidable (w.Current a) := match a with
  | .pass i r => inferInstanceAs
      (Decidable (∀ p ∈ w.ctl.passes[i]?, ∀ statuses ∈ p.pc.read, r ≠ .fail → _ → _ ∨ _))
  | .cancelJobs i => inferInstanceAs (Decidable (∀ runId ∈ w.ctl.cancels[i]?, _ ∨ _ ∨ _))
  | .tick _ | .setPool _ | .submit .. | .advance _ | .passDies _ | .deliver _ | .exec ..
  | .execDies _ | .cancelRun _ | .cancelDies _ | .watch | .watchJob .. | .watchDies _ => .isTrue trivial

end Decide

/-- A run of one job, from its submission to its success. -/
def oneJob : List Act :=
  .submit "r" .plain .single ::
    (schedule 1 1 ++ takeJob 0 ++ succeedJob ++ schedule 1 0)

theorem status_agrees_oneJob : ∃ w : World, w.runStatus "r" = some .success ∧ w.Agrees := by
  have hrun : ((machine .plain).run (World.start 0 .single) oneJob).map (·.runStatus "r") =
      some (some .success) := by decide
  obtain ⟨w, hw, hs⟩ := Option.map_eq_some_iff.mp hrun
  exact ⟨w, hs, status_agrees .plain 0 .single oneJob (by decide) hw⟩

/-- The first pass reads the status of the queued job, and writes it when the job has succeeded and
the second pass has written that. -/
def overtaken : List Act :=
  .submit "r" .plain .single ::
    (List.replicate 7 (.pass 0 .ok) ++ takeJob 0 ++ succeedJob ++ List.replicate 7 (.pass 1 .ok) ++
      [.pass 0 .ok])

/-- The run is left running although its only job has succeeded. -/
theorem status_overtaken : ¬ ∀ (env : Env) (now : Nat) (pool : Pool) (as : List Act),
    (machine env).Throughout (fun w a _ => w.Followed a) (World.start now pool) as →
    ∀ w, (machine env).run (World.start now pool) as = some w → w.Agrees := by
  intro h
  have hrun : ((machine .plain).run (World.start 0 .single) overtaken).map (fun w => decide w.Agrees) =
      some false := by decide
  obtain ⟨w, hw, hno⟩ := Option.map_eq_some_iff.mp hrun
  exact of_decide_eq_false hno (h .plain 0 .single overtaken (by decide) w hw)

end HeyoCi
