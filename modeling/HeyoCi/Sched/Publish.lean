import HeyoCi.Sched.Strand

/-!
# A job is published once

A pass publishes the job it has just queued, and puts it back when the publish fails. Meanwhile the
job is in the hands of that pass alone.

* `Ctl.tokens`: the jobs in the hands of a pass; `World.Handed`: one pass each, and not pending;
* `World.Publishes`, `World.PutsBack`: a call of `publish_job`, and an `unqueue_job` that moves a row;
* `World.Spent`, `World.Settled`: nobody will publish a job, or nobody will until it is put back;
* **`published_once`**: between two publishes of a job there is a failed one and a roll-back.
-/

namespace HeyoCi

/-- The jobs that passes are about to publish or to put back. -/
def Ctl.tokens (c : Ctl) : List String := c.passes.filterMap (·.pc.places)

theorem Ctl.mem_tokens {c : Ctl} {id : String} :
    id ∈ c.tokens ↔ ∃ p ∈ c.passes, id ∈ p.pc.places := List.mem_filterMap

/-- The job a pass is about to publish. -/
def PassPc.publishing : PassPc → Option String
  | .publish _ job .. => some job.id
  | _ => none

theorem PassPc.places_of_publishing {pc : PassPc} {id : String} (h : pc.publishing = some id) :
    pc.places = some id := by
  cases pc with
  | publish => exact h
  | _ => cases h

/-- The job is there and no longer pending. -/
def Db.Taken (db : Db) (id : String) : Prop :=
  ∃ j ∈ db.jobs.rows, j.id = id ∧ j.status ≠ .pending

namespace World

variable (w : World)

/-- A job is in the hands of one pass at most, and is taken while it is. -/
structure Handed : Prop where
  nodup : w.ctl.tokens.Nodup
  taken : ∀ id ∈ w.ctl.tokens, w.db.Taken id

/-- The action is a call of `publish_job` for the job, with its reply. -/
def Publishes (a : Act) (id : String) (r : Reply) : Prop :=
  ∃ i p, a = .pass i r ∧ w.ctl.passes[i]? = some p ∧ p.pc.publishing = some id

/-- The step is an `unqueue_job` that moves the job from `queued` to `pending`. -/
def PutsBack (env : Env) (id : String) (w : World) (a : Act) (w' : World) : Prop :=
  stmtOf env w a = some (.unqueueJob id) ∧ w.status id = some .queued ∧
    w'.status id = some .pending

/-- No pass has the job in its hands, and none will queue it. -/
def Spent (id : String) : Prop := w.db.Taken id ∧ id ∉ w.ctl.tokens

/-- No pass is about to publish the job, and none will queue it before it is put back. -/
def Settled (id : String) : Prop :=
  w.db.Taken id ∧ ∀ p ∈ w.ctl.passes, p.pc.publishing ≠ some id

end World

/-- Whether the caller of `publish_job` sees an error. -/
def Reply.isError : Reply → Bool
  | .fail | .unacked => true
  | .ok | .duplicate => false

/-! ## Rows that are taken -/

section Taken

variable {db : Db} {st : Stmt} {id : String}

/-- A taken job stays taken unless it is put back. -/
theorem Db.Taken.exec (h : db.Taken id) (hset : st.SetsFinal) :
    (db.exec st).Taken id ∨ (st = .unqueueJob id ∧
      ∃ j ∈ db.jobs.rows, j.id = id ∧ j.status = .queued) := by
  obtain ⟨j, hj, rfl, hs⟩ := h
  by_cases hback : ((st.onJobs db.now).row j).status = .pending
  · right
    have hm := Stmt.moves db.now st j
    rw [hback] at hm
    revert hm
    generalize hp : JobStatus.pending = s
    intro hm
    cases hm with
    | keep => exact absurd hp.symm hs
    | unqueue hq => exact ⟨rfl, j, hj, rfl, hq⟩
    | set s e =>
      have hfinal := hset _ _ _ rfl
      rw [← hp] at hfinal
      cases hfinal
    | queue | claim | start | cancel => cases hp
  · exact Or.inl ⟨_, Db.mem_exec_jobs.mpr (Or.inl ⟨j, hj, rfl⟩), (st.same db.now j).id, hback⟩

/-- A statement that queues a job finds it pending. -/
theorem Db.pending_of_affects (h : db.affectsJobs (.queueJob id) = true) :
    ∃ j ∈ db.jobs.rows, j.id = id ∧ j.status = .pending := by
  obtain ⟨j, hj, hits⟩ := (db.jobs.affected_iff _).mp h
  obtain ⟨hid, hs⟩ : j.id = id ∧ j.status = .pending := by
    simpa [Stmt.onJobs, Store.queueJob] using hits
  exact ⟨j, hj, hid, hs⟩

theorem Db.Taken.not_affected (h : db.Taken id) : db.affectsJobs (.queueJob id) ≠ true := by
  intro ha
  obtain ⟨j, hj, hid, hs⟩ := Db.pending_of_affects ha
  obtain ⟨j', hj', hid', hs'⟩ := h
  rw [db.jobs.eq_of_key hj' hj (hid'.trans hid.symm)] at hs'
  exact hs' hs

theorem Db.taken_queue (h : db.affectsJobs (.queueJob id) = true) :
    (db.exec (.queueJob id)).Taken id := by
  obtain ⟨j, hj, rfl, hs⟩ := Db.pending_of_affects h
  refine ⟨_, Db.mem_exec_jobs.mpr (Or.inl ⟨j, hj, rfl⟩), Stmt.same _ _ j |>.id, ?_⟩
  rw [Table.Update.row_of_hits (by simp [Stmt.onJobs, Store.queueJob, hs])]
  exact JobStatus.noConfusion

end Taken

/-! ## What a pass takes into its hands -/

section Pass

variable {env : Env} {pool : Pool} {db : Db} {p : Pass} {m : PassMove} {id : String}

/-- A pass has a job in its hands that it had before, or has just queued. -/
theorem Pass.Moves.places (hm : p.Moves env pool db m) {pc : PassPc} (hpc : m.next = some pc)
    (hid : id ∈ pc.places) :
    id ∈ p.pc.places ∨ (m.stmt = .queueJob id ∧ db.affectsJobs (.queueJob id) = true) := by
  cases hm with
  | queue snap j todo h plan route hd ha =>
    cases hpc
    cases hid
    exact Or.inr ⟨rfl, ha⟩
  | refused snap j route msg todo h =>
    cases hpc
    rw [h]
    exact Or.inl hid
  | fails | setRunStatus => cases hpc
  | _ =>
    cases hpc
    cases hid

/-- A pass publishes next what it has just queued. -/
theorem Pass.Moves.publishes (hm : p.Moves env pool db m) {pc : PassPc} (hpc : m.next = some pc)
    (hid : pc.publishing = some id) : db.affectsJobs (.queueJob id) = true := by
  cases hm with
  | queue snap j todo h plan route hd ha =>
    cases hpc
    cases hid
    exact ha
  | fails | setRunStatus => cases hpc
  | _ =>
    cases hpc
    cases hid

/-- A pass puts back only the job in its hands, and has it no longer. -/
theorem Pass.Moves.unqueues (hm : p.Moves env pool db m) (hst : m.stmt = .unqueueJob id) :
    id ∈ p.pc.places ∧ ∀ pc, m.next = some pc → pc.places = none := by
  cases hm with
  | unqueue snap j todo h =>
    cases hst
    rw [h]
    refine ⟨rfl, fun pc hpc => ?_⟩
    cases hpc
    rfl
  | _ => cases hst

end Pass

/-- Whoever puts a job back is a pass that has it in its hands. -/
theorem World.Moves.unqueues {env : Env} {w : World} {a : Act} {id : String} {c : Ctl}
    (h : World.Moves env w a (.unqueueJob id) c) :
    ∃ i p r m, a = .pass i r ∧ w.ctl.passes[i]? = some p ∧ p.Moves env w.ctl.pool w.db m ∧
      m.stmt = .unqueueJob id ∧ c = w.ctl.passTo i p m := by
  generalize hst : Stmt.unqueueJob id = st at h
  cases h with
  | pass i p hi r m hm hr => exact ⟨i, p, r, m, rfl, hi, hm, rfl, rfl⟩
  | exec i x hi o m hm ho => cases hm <;> cases hst
  | _ => cases hst

section Moves

variable {env : Env} {w : World} {a : Act} {st : Stmt} {c : Ctl} {id : String}

/-- A job in the hands of a pass was so before, or has just been queued. -/
theorem World.Moves.mem_tokens (h : World.Moves env w a st c) (hid : id ∈ c.tokens) :
    id ∈ w.ctl.tokens ∨ (st = .queueJob id ∧ w.db.affectsJobs (.queueJob id) = true) := by
  obtain ⟨p', hp', hid⟩ := Ctl.mem_tokens.mp hid
  rcases h.mem_passes hp' with hold | ⟨p, hp, m, hm, hst, -, hnext⟩ | ⟨hpc, -⟩
  · exact Or.inl (Ctl.mem_tokens.mpr ⟨p', hold, hid⟩)
  · rw [hst]
    exact (hm.places hnext hid).imp_left fun hold => Ctl.mem_tokens.mpr ⟨p, hp, hold⟩
  · rw [hpc] at hid
    cases hid

/-- **A job that is spent stays so.** -/
theorem World.Spent.moves (hw : w.Spent id) (h : World.Moves env w a st c) :
    World.Spent ⟨w.db.exec st, c⟩ id := by
  refine ⟨?_, fun hid => ?_⟩
  · rcases hw.1.exec h.setsFinal with ht | ⟨rfl, -⟩
    · exact ht
    · obtain ⟨i, p, r, m, -, hi, hm, hst, -⟩ := h.unqueues
      have hid := Ctl.mem_tokens.mpr ⟨p, List.mem_of_getElem? hi, (hm.unqueues hst).1⟩
      exact absurd hid hw.2
  · rcases h.mem_tokens hid with hold | ⟨-, ha⟩
    · exact hw.2 hold
    · exact hw.1.not_affected ha

/-- **A job that is settled stays so unless it is put back.** -/
theorem World.Settled.moves (hw : w.Settled id) (h : World.Moves env w a st c) :
    World.Settled ⟨w.db.exec st, c⟩ id ∨
      (st = .unqueueJob id ∧ ∃ j ∈ w.db.jobs.rows, j.id = id ∧ j.status = .queued) := by
  refine (hw.1.exec h.setsFinal).imp_left fun ht => ⟨ht, fun p' hp' hid => ?_⟩
  rcases h.mem_passes hp' with hold | ⟨p, hp, m, hm, -, -, hnext⟩ | ⟨hstart, -⟩
  · exact hw.2 p' hold hid
  · exact hw.1.not_affected (hm.publishes hnext hid)
  · rw [hstart] at hid
    cases hid

/-! ## One pass has a job in its hands -/

/-- What is in the hands of the passes, beside one that moves. -/
theorem Ctl.tokens_passTo {i : Nat} {p : Pass} (hi : c.passes[i]? = some p) (m : PassMove) :
    c.tokens.Perm (p.pc.places.toList ++ (c.withoutPass i).tokens) ∧ (c.passTo i p m).tokens.Perm
      ((m.next.bind PassPc.places).toList ++ (c.withoutPass i).tokens) := by
  have hput := Actors.perm_put hi (m.next.map (Pass.mk p.runId))
  constructor
  · refine (hput.1.filterMap (·.pc.places)).trans (List.Perm.of_eq ?_)
    rw [List.filterMap_cons]
    cases p.pc.places <;> rfl
  · refine (hput.2.filterMap (·.pc.places)).trans (List.Perm.of_eq ?_)
    rw [List.filterMap_append]
    cases m.next with
    | none => rfl
    | some pc => cases hpc : pc.places <;> simp [hpc, Ctl.tokens, Ctl.withoutPass, Actors.put]

/-- A job in the hands of a pass is in nobody else's. -/
theorem World.Handed.notMem_without (hw : w.Handed) {i : Nat} {p : Pass}
    (hi : w.ctl.passes[i]? = some p) (hid : p.pc.places = some id) :
    id ∉ (w.ctl.withoutPass i).tokens := by
  have hnodup := ((Ctl.tokens_passTo hi ⟨.read, none, none⟩).1.nodup_iff).mp hw.nodup
  rw [hid] at hnodup
  exact (List.nodup_cons.mp hnodup).1

theorem Ctl.tokens_spawn (c : Ctl) (runId : String) : (c.spawn runId).tokens = c.tokens := by
  simp [Ctl.tokens, Ctl.spawn, PassPc.places]

/-- A job that is put back is in nobody's hands any more. -/
theorem World.Handed.notMem_of_unqueue (hw : w.Handed)
    (h : World.Moves env w a (.unqueueJob id) c) : id ∉ c.tokens := by
  obtain ⟨i, p, r, m, -, hi, hm, hst, rfl⟩ := h.unqueues
  obtain ⟨hid, hgone⟩ := hm.unqueues hst
  have hnone : m.next.bind PassPc.places = none := by
    cases hn : m.next with
    | none => rfl
    | some pc => exact hgone pc hn
  rw [(Ctl.tokens_passTo hi m).2.mem_iff, hnone]
  exact hw.notMem_without hi hid

theorem World.Handed.nodup_moves (hw : w.Handed) (h : World.Moves env w a st c) :
    c.tokens.Nodup := by
  cases h with
  | pass i p hi r m hm hr =>
    obtain ⟨hbefore, hafter⟩ := Ctl.tokens_passTo hi m
    have hnodup := (hbefore.nodup_iff).mp hw.nodup
    rw [hafter.nodup_iff]
    cases hnext : m.next.bind PassPc.places with
    | none => exact (List.nodup_append.mp hnodup).2.1
    | some id =>
      obtain ⟨pc, hpc, hplace⟩ := Option.bind_eq_some_iff.mp hnext
      rcases hm.places hpc hplace with hold | ⟨-, ha⟩
      · have hsame : p.pc.places = some id := hold
        rwa [hsame] at hnodup
      · refine List.nodup_cons.mpr ⟨fun hmem => ?_, (List.nodup_append.mp hnodup).2.1⟩
        have hid : id ∈ w.ctl.tokens := hbefore.mem_iff.mpr (List.mem_append_right _ hmem)
        exact (hw.taken id hid).not_affected ha
  | passDies i p hi =>
    have hsub : (w.ctl.withoutPass i).tokens.Sublist w.ctl.tokens :=
      List.Sublist.filterMap (fun p : Pass => p.pc.places) (List.eraseIdx_sublist w.ctl.passes i)
    exact hw.nodup.sublist hsub
  | submit runId | advance runId =>
    rw [Ctl.tokens_spawn]
    exact hw.nodup
  | watchFail i x hi job todo ht r =>
    rw [Ctl.tokens_spawn]
    exact hw.nodup
  | exec i x hi o m hm ho =>
    cases hn : m.next with
    | goto pc => exact hw.nodup
    | settled acked =>
      show (Ctl.spawn _ x.body.runId).tokens.Nodup
      rw [Ctl.tokens_spawn]
      exact hw.nodup
  | _ => exact hw.nodup

/-- **Every step keeps a job in the hands of one pass.** -/
theorem World.Handed.moves (hw : w.Handed) (h : World.Moves env w a st c) :
    World.Handed ⟨w.db.exec st, c⟩ := by
  refine ⟨hw.nodup_moves h, fun id hid => ?_⟩
  rcases h.mem_tokens hid with hold | ⟨rfl, ha⟩
  · rcases (hw.taken id hold).exec h.setsFinal with ht | ⟨rfl, -⟩
    · exact ht
    · exact absurd hid (hw.notMem_of_unqueue h)
  · exact Db.taken_queue ha

theorem handed_reachable {ok : World → Act → Prop} (h : (machine env).Reachable ok w) :
    w.Handed := by
  refine h.inv World.Handed ?_ fun w a w' _ hI _ hstep => ?_
  · rintro _ ⟨now, pool, rfl⟩
    exact ⟨List.nodup_nil, nofun⟩
  · obtain ⟨st, c, -, hm, rfl⟩ := step_cases hstep
    exact hI.moves hm

/-! ## After a publish -/

/-- A publish that succeeds leaves the job spent, and one that fails leaves it settled. -/
theorem World.Publishes.after {w' : World} {r : Reply} (hw : w.Handed) (hp : w.Publishes a id r)
    (hstep : step env w a = some w') : w'.Settled id ∧ (r.isError = false → w'.Spent id) := by
  obtain ⟨i, p, rfl, hi, hpub⟩ := hp
  have hplace := PassPc.places_of_publishing hpub
  have htaken : w.db.Taken id :=
    hw.taken _ (Ctl.mem_tokens.mpr ⟨p, List.mem_of_getElem? hi, hplace⟩)
  have hothers := hw.notMem_without hi hplace
  obtain ⟨st, c, -, hm, rfl⟩ := step_cases hstep
  cases hm with
  | watchEnds i x hi a ha => rcases ha with ha | ⟨_, ha, -⟩ <;> cases ha
  | pass i p' hi' r m hm hr =>
    obtain rfl : p = p' := Option.some.inj (hi.symm.trans hi')
    obtain ⟨snap, job, route, msg, todo, hpc⟩ : ∃ snap job route msg todo,
        p.pc = .publish snap job route msg todo := by
      cases hp : p.pc with
      | publish snap job route msg todo => exact ⟨snap, job, route, msg, todo, rfl⟩
      | _ =>
        rw [hp] at hpub
        cases hpub
    have hread : m.stmt = .read := by
      rw [← hr, Pass.move, hpc]
      cases r <;> rfl
    have htaken' : (w.db.exec m.stmt).Taken id := by rwa [hread, Db.exec_read]
    refine ⟨⟨htaken', fun q hq hqid => ?_⟩, fun herr => ⟨htaken', ?_⟩⟩
    · rcases (Actors.mem_put_iff hi).mp hq with hq | hq
      · exact hothers (Ctl.mem_tokens.mpr ⟨q, hq, PassPc.places_of_publishing hqid⟩)
      · obtain ⟨pc, hnext, rfl⟩ := Option.map_eq_some_iff.mp hq
        exact htaken.not_affected (hm.publishes hnext hqid)
    · have hnone : m.next.bind PassPc.places = none := by
        rw [← hr, Pass.move, hpc]
        cases r with
        | ok | duplicate => rfl
        | fail | unacked => cases herr
      rw [(Ctl.tokens_passTo hi m).2.mem_iff, hnone]
      exact hothers

theorem World.Publishes.mem_tokens {r : Reply} (hp : w.Publishes a id r) : id ∈ w.ctl.tokens := by
  obtain ⟨i, p, -, hi, hpub⟩ := hp
  exact Ctl.mem_tokens.mpr ⟨p, List.mem_of_getElem? hi, PassPc.places_of_publishing hpub⟩

/-- Along a run a settled job stays so, or is put back at some step. -/
theorem settled_or_putBack {w' : World} {as : List Act}
    (hr : (machine env).Reachable Machine.anyStep w) (hw : w.Settled id)
    (hrun : (machine env).run w as = some w') : w'.Settled id ∨ ∃ pre b post v v',
      as = pre ++ b :: post ∧ (machine env).run w pre = some v ∧ (machine env).step v b = some v' ∧
        World.PutsBack env id v b v' := by
  refine Machine.kept_or_split (I := fun v => v.Settled id) (E := World.PutsBack env id) hr hw
    (fun v b v' _ hs hstep => ?_) hrun
  obtain ⟨st, c, hst, hm, rfl⟩ := step_cases hstep
  refine (hs.moves hm).imp_right ?_
  rintro ⟨rfl, j, hj, rfl, hq⟩
  have hfind := v.db.jobs.find_of_mem hj
  refine ⟨hst, by rw [World.status, hfind, Option.map_some, hq], ?_⟩
  rw [World.status, Db.find_exec_job hfind, Option.map_some,
    Table.Update.row_of_hits (by simp [Stmt.onJobs, Store.unqueueJob, hq])]
  rfl

/-- Along a run a spent job stays so. -/
theorem spent_of_run {w' : World} {as : List Act} (hw : w.Spent id)
    (hrun : (machine env).run w as = some w') : w'.Spent id := by
  refine Machine.Reach.inv (fun v => v.Spent id) (fun v b v' hs _ hstep => ?_)
    (Machine.reach_of_run hrun) hw
  obtain ⟨st, c, -, hm, rfl⟩ := step_cases hstep
  exact hs.moves hm

end Moves

/-- After the actions `pre` of a run, the next one calls `publish_job` for the job. -/
def PublishCall (env : Env) (now : Nat) (pool : Pool) (pre : List Act) (a : Act) (id : String)
    (r : Reply) : Prop :=
  ∃ w, (machine env).run (World.start now pool) pre = some w ∧ w.Publishes a id r

/-- After the actions `pre` of a run, the next one puts the job back. -/
def PutBack (env : Env) (now : Nat) (pool : Pool) (pre : List Act) (a : Act) (id : String) : Prop :=
  ∃ w w', (machine env).run (World.start now pool) pre = some w ∧
    (machine env).step w a = some w' ∧ World.PutsBack env id w a w'

/-- What is between two publishes of a job. -/
theorem putBack_between {env : Env} {now : Nat} {pool : Pool} {pre mid : List Act} {a b : Act}
    {id : String} {r r' : Reply} (ha : PublishCall env now pool pre a id r)
    (hb : PublishCall env now pool (pre ++ a :: mid) b id r') :
    r.isError = true ∧ ∃ before u after, mid = before ++ u :: after ∧
      PutBack env now pool (pre ++ a :: before) u id := by
  obtain ⟨w, hw, hpa⟩ := ha
  obtain ⟨w₂, hw₂, hpb⟩ := hb
  rw [Machine.run_append, hw, Option.bind_some] at hw₂
  obtain ⟨w₁, hstep, hmid⟩ := Option.bind_eq_some_iff.mp hw₂
  have hreach : (machine env).Reachable Machine.anyStep w :=
    Machine.reachable_of_run ⟨now, pool, rfl⟩ hw
  obtain ⟨hsettled, hspent⟩ := hpa.after (handed_reachable hreach) hstep
  constructor
  · by_contra hok
    exact (spent_of_run (hspent (Bool.eq_false_iff.mpr hok)) hmid).2 hpb.mem_tokens
  · rcases settled_or_putBack (hreach.step trivial hstep) hsettled hmid with
      hs | ⟨before, u, after, v, v', rfl, hv, hu, hback⟩
    · obtain ⟨i, p, -, hi, hpub⟩ := hpb
      exact absurd hpub (hs.2 p (List.mem_of_getElem? hi))
    · refine ⟨before, u, after, rfl, v, v', ?_, hu, hback⟩
      rw [Machine.run_append, hw, Option.bind_some, Machine.run, hstep, Option.bind_some, hv]

/-- **Between two publishes of a job the first has failed and the job was put back**, and when no
publish of a job fails in a run there is at most one. -/
theorem published_once (env : Env) (now : Nat) (pool : Pool) (id : String) :
    (∀ pre a mid b r r', PublishCall env now pool pre a id r →
      PublishCall env now pool (pre ++ a :: mid) b id r' →
      r.isError = true ∧ ∃ before u after, mid = before ++ u :: after ∧
        PutBack env now pool (pre ++ a :: before) u id) ∧
    ∀ as : List Act, (∀ pre a post r, as = pre ++ a :: post → PublishCall env now pool pre a id r →
        r.isError = false) →
      ∀ pre a mid b post r r', as = pre ++ a :: mid ++ b :: post →
        PublishCall env now pool pre a id r → ¬ PublishCall env now pool (pre ++ a :: mid) b id r' := by
  refine ⟨fun pre a mid b r r' ha hb => putBack_between ha hb, ?_⟩
  intro as hok pre a mid b post r r' has ha hb
  have hfailed := (putBack_between ha hb).1
  rw [hok pre a (mid ++ b :: post) r (by simp [has]) ha] at hfailed
  cases hfailed

/-! ## A publish that is tried again -/

/-- A run of one job, up to the first publish. -/
def firstPublish : List Act := .submit "r" .plain .single :: List.replicate 4 (.pass 0 .ok)

/-- The pass puts the job back and ends, and another gets to the publish. -/
def untilNextPublish : List Act :=
  List.replicate 4 (.pass 0 .ok) ++ .advance "r" :: List.replicate 4 (.pass 0 .ok)

theorem publishCall_of_run {env : Env} {now : Nat} {pool : Pool} {pre : List Act} {id : String}
    {r : Reply} (h : ((machine env).run (World.start now pool) pre).bind
      (fun w => w.ctl.passes[0]?.bind (·.pc.publishing)) = some id) :
    PublishCall env now pool pre (.pass 0 r) id r := by
  obtain ⟨w, hw, h⟩ := Option.bind_eq_some_iff.mp h
  obtain ⟨p, hi, hpub⟩ := Option.bind_eq_some_iff.mp h
  exact ⟨w, hw, 0, p, rfl, hi, hpub⟩

theorem published_once_retried : ∃ before u after, untilNextPublish = before ++ u :: after ∧
    PutBack .plain 0 .single (firstPublish ++ .pass 0 .fail :: before) u "r.build" :=
  ((published_once .plain 0 .single "r.build").1 firstPublish (.pass 0 .fail) untilNextPublish
    (.pass 0 .ok) .fail .ok (publishCall_of_run (by decide)) (publishCall_of_run (by decide))).2

end HeyoCi
