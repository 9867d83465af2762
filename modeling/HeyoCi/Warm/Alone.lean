import HeyoCi.Warm.Leak
import HeyoCi.Warm.Mutex

/-!
# One VM, one job in its steps

A job gets its VM from the pool, or names one that exists. The pool gives a VM to one job at a time
for as long as nobody reclaims it from a job that is still there; a named VM is nobody's.

* `Fleet.OneJob`: no two jobs are in their steps in one VM;
* `Fleet.BeginsAlone`: an execution that begins its steps meets no other job's, if either has its VM
  by name;
* `Fleet.LeavesHeld`: a reclaim frees no VM that an execution has;
* `Fleet.Apart`: what an execution has from the pool is claimed, and no other execution has it;
* `Fleet.Apart.step`, `Fleet.OneJob.step`: what one step keeps;
* **`oneJob_of_apart`**: runs of such steps have one job in a VM, and no others begin alone;
* `named_vm_shared`: a job that names the VM of another.
-/

namespace HeyoCi

/-! ## The pool -/

namespace PoolDb

variable {db : PoolDb}

theorem claimed_claim {runner fp jobId s : String} {lease : Lease} {locked : List String}
    (hp : db.pick runner fp locked = some s) :
    ∃ r ∈ (db.exec (.claim runner fp jobId lease locked)).vms.rows,
      r.sandboxId = s ∧ r.status = .claimed := by
  obtain ⟨r, hr, rfl, -⟩ := idle_of_pick hp
  have hhits : ((VmStmt.claim runner fp jobId lease locked).onVms db).hits r = true :=
    decide_eq_true hp
  refine ⟨_, mem_exec.mpr (Or.inl ⟨r, hr, rfl, rfl⟩), Table.Update.key_row _ r, ?_⟩
  rw [Table.Update.row_of_hits hhits]
  rfl

theorem claimed_register {runner fp wf jobId s : String} {lease : Lease} :
    ∃ r ∈ (db.exec (.register s runner fp wf jobId lease)).vms.rows,
      r.sandboxId = s ∧ r.status = .claimed := by
  cases hf : db.vms.find s with
  | none => exact ⟨_, mem_exec.mpr (Or.inr ⟨hf, rfl⟩), rfl, rfl⟩
  | some r =>
    have hid := Table.key_of_find hf
    have hhits : ((VmStmt.register s runner fp wf jobId lease).onVms db).hits r = true :=
      decide_eq_true hid
    refine ⟨_, mem_exec.mpr (Or.inl ⟨r, Table.mem_of_find hf, rfl, rfl⟩), ?_, ?_⟩
    · exact (Table.Update.key_row _ r).trans hid
    · rw [Table.Update.row_of_hits hhits]
      rfl

end PoolDb

namespace VmWorld

variable {w : VmWorld} {a : VmAct} {st : VmStmt} {c : VmCtl}

/-- A claimed VM stays claimed, unless it is handed back or reclaimed. -/
theorem Moves.staysClaimed (hm : w.Moves a st c) (hids : w.Ids) (hsw : w.Swept) {r : PooledVm}
    (hr : r ∈ w.db.vms.rows) (hs : r.status = .claimed)
    (hrel : ∀ i, a ≠ .release i r.sandboxId) (hfor : ∀ i, a ≠ .forget i r.sandboxId)
    (hre : ∀ store runners instanceId, a = .releaseOrphans store runners instanceId →
      (VmPool.releaseOrphans store w.db.now runners instanceId).hits r = false) :
    ∃ r' ∈ (w.db.exec st).vms.rows, r'.sandboxId = r.sandboxId ∧ r'.status = .claimed := by
  have hassigned : r.sandboxId ∈ w.ctl.assigned := hids.mem_assigned hr (by rw [hs]; nofun)
  have hkept : st.deletes w.db.now r = false := by
    rw [Bool.eq_false_iff]
    intro hd
    cases st with
    | forget s =>
      obtain rfl : r.sandboxId = s := of_decide_eq_true hd
      generalize hid : r.sandboxId = s at hm
      cases hm with
      | clearBuild i x hi => exact hids.assigned _ hassigned _ hid
      | forget i x hi s ho => exact hfor i (by rw [hid])
      | swept k s hk =>
        rw [hsw s (List.mem_of_getElem? hk) r hr hid] at hs
        cases hs
    | sweepStaleBuilds runners instanceId =>
      simp only [VmStmt.deletes, VmPool.sweepStaleBuilds, Bool.and_eq_true, decide_eq_true_eq] at hd
      rw [hs] at hd
      cases hd.1.1.1
    | _ => cases hd
  refine ⟨_, PoolDb.mem_exec.mpr (Or.inl ⟨r, hr, hkept, rfl⟩), Table.Update.key_row _ r, ?_⟩
  have hmv := st.moves w.db hr
  generalize hrow : (st.onVms w.db).row r = r' at hmv
  cases hmv with
  | keep | renew => exact hs
  | claim | register => rfl
  | build jobId runner fp wf lease hid => exact absurd hid (hids.assigned _ hassigned jobId)
  | release =>
    cases hm with
    | release i x hi s ho => exact absurd rfl (hrel i)
  | orphan store runners instanceId hc ho =>
    cases hm
    have hno : ((VmStmt.releaseOrphans store runners instanceId).onVms w.db).hits r = false :=
      hre store runners instanceId rfl
    rw [Table.Update.row_of_not_hits hno] at hrow
    rw [← hrow]
    exact hs
  | drain s ht hc hb => exact absurd hs hc

end VmWorld

/-! ## An execution -/

namespace Attempt

variable {x : Attempt} {db : PoolDb} {locked : List String} {r : VmReply} {n : VmNext} {pc : VmPc}

/-- An execution hands back what it holds. -/
theorem holds_of_call (hx : x.Apt) {i : Nat} {s : String}
    (h : x.call locked = some (.release i s) ∨ x.call locked = some (.forget i s)) :
    x.holds = some s := by
  have hown : x.pc.existing = some false ∧ x.pc.vm = some s := by
    rcases h with h | h <;> cases hpc : x.pc <;> rw [call, hpc] at h <;> cases h <;> exact ⟨rfl, rfl⟩
  have hnone : x.job.existingVm = none := by simpa using hx false hown.1
  exact holds_eq_some.mpr ⟨hnone, hown.2⟩

theorem call_ne_releaseOrphans {store : Db} {runners : List String} {instanceId : String} :
    x.call locked ≠ some (.releaseOrphans store runners instanceId) := by
  intro h
  cases hpc : x.pc <;> rw [call, hpc] at h <;> cases h

/-- An execution makes no call of the pool while it holds a VM that it goes on with. -/
theorem call_of_keeps {s s' : String} (hs : x.holds = some s) (h : x.next db locked r = some n)
    (hpc : n.pc = some pc) (hs' : ({ x with pc := pc } : Attempt).holds = some s') :
    x.call locked = none := by
  obtain ⟨-, hvm⟩ := holds_eq_some.mp hs
  obtain ⟨-, hvm'⟩ := holds_eq_some.mp hs'
  obtain ⟨job, lease, client, pc₀⟩ := x
  cases pc₀ <;> first | rfl | (cases hvm; done) | skip
  all_goals
    cases r <;> simp only [next, Option.some.injEq, reduceCtorEq] at h <;> subst h <;>
      grind [VmNext.pc, VmPc.vm, released]

/-- The steps begin when the job is on record as started. -/
theorem startJob_of_steps {s : String} (h : x.next db locked r = some n)
    (hpc : n.pc = some (.steps s)) : x.pc = .startJob s ∧ r = .ok := by
  obtain ⟨job, lease, client, pc₀⟩ := x
  cases pc₀ with
  | ensureImage =>
    cases r <;> simp only [next, Option.some.injEq, reduceCtorEq] at h <;> subst h <;>
      grind [VmNext.pc, machine]
  | startJob s' | steps s' =>
    cases r <;> simp only [next, Option.some.injEq, reduceCtorEq] at h <;> subst h <;>
      grind [VmNext.pc, releaseVm, released]
  | _ =>
    cases r <;> simp only [next, Option.some.injEq, reduceCtorEq] at h <;> subst h <;>
      grind [VmNext.pc, released]

end Attempt

/-! ## The instances -/

namespace Fleet

variable {w w' : Fleet} {a : FleetAct}

/-- No two jobs are in their steps in one VM. -/
def OneJob (w : Fleet) : Prop := ∀ x ∈ w.attempts, ∀ y ∈ w.attempts, ∀ s,
  x.pc = .steps s → y.pc = .steps s → x.job.id = y.job.id

/-- An execution that begins its steps in a VM where another job is in its steps has its VM from the
pool, and so has the other. -/
def BeginsAlone (w : Fleet) (a : FleetAct) : Prop := ∀ i locked, a = .attempt i .ok locked →
  ∀ x, w.attempts[i]? = some x → ∀ s, x.pc = .startJob s → ∀ y ∈ w.attempts, y.pc = .steps s →
    x.job.id ≠ y.job.id → x.job.existingVm = none ∧ y.job.existingVm = none

/-- A reclaim frees no VM that an execution has. -/
def LeavesHeld (w : Fleet) (a : FleetAct) : Prop := ∀ store runners instanceId,
  a = .pool (.releaseOrphans store runners instanceId) → ∀ x ∈ w.attempts,
    ∀ r ∈ w.vm.db.vms.rows, x.holds = some r.sandboxId →
      (VmPool.releaseOrphans store w.vm.db.now runners instanceId).hits r = false

/-- What an execution has from the pool is claimed, and no other execution has it. -/
structure Apart (w : Fleet) : Prop where
  claimed : ∀ x ∈ w.attempts, ∀ s, x.holds = some s →
    ∃ r ∈ w.vm.db.vms.rows, r.sandboxId = s ∧ r.status = .claimed
  alone : ∀ x ∈ w.attempts, ∀ y ∈ w.attempts, ∀ s, x.holds = some s → y.holds = some s → x = y
  swept : w.vm.Swept

/-- Whatever row a held VM has is claimed. -/
theorem Apart.status (h : w.Apart) {x : Attempt} (hx : x ∈ w.attempts) {r : PooledVm}
    (hr : r ∈ w.vm.db.vms.rows) (hs : x.holds = some r.sandboxId) : r.status = .claimed := by
  obtain ⟨r', hr', hid, hc⟩ := h.claimed x hx _ hs
  rwa [w.vm.db.vms.eq_of_key hr' hr hid] at hc

/-- A call of the pool that hands nothing of an execution back leaves its VM claimed. -/
theorem Apart.claimed_step (h : w.Apart) (hids : w.vm.Ids) {b : VmAct} {vm : VmWorld}
    (hb : w.vm.step b = some vm) {x : Attempt} (hx : x ∈ w.attempts) {s : String}
    (hs : x.holds = some s) (hrel : ∀ i, b ≠ .release i s) (hfor : ∀ i, b ≠ .forget i s)
    (hre : ∀ store runners instanceId, b = .releaseOrphans store runners instanceId →
      ∀ r ∈ w.vm.db.vms.rows, r.sandboxId = s →
        (VmPool.releaseOrphans store w.vm.db.now runners instanceId).hits r = false) :
    ∃ r ∈ vm.db.vms.rows, r.sandboxId = s ∧ r.status = .claimed := by
  obtain ⟨r, hr, rfl, hc⟩ := h.claimed x hx s hs
  obtain ⟨st, c, hm, rfl⟩ := vmStep_cases hb
  exact hm.staysClaimed hids h.swept hr hc hrel hfor
    fun store runners instanceId he => hre store runners instanceId he r hr rfl

/-- The releases of the executions find claimed VMs. -/
theorem Apart.leavesSwept (h : w.Apart) (hc : w.Clients) {x : Attempt} (hx : x ∈ w.attempts)
    {locked : List String} {b : VmAct} (hb : x.call locked = some b) : w.vm.LeavesSwept b := by
  rintro i r hr rfl hd
  have hheld := Attempt.holds_of_call (hc x hx).1 (Or.inl hb)
  rw [h.status hx hr hheld] at hd
  cases hd

theorem leavesSwept_of_fromOutside {live : List Lease} {v : VmWorld} {b : VmAct}
    (hb : b.fromOutside live = true) : v.LeavesSwept b := by
  rintro i r - rfl -
  cases hb

theorem swept_step (hids : w.vm.Ids) (hsw : w.vm.Swept) {b : VmAct} {vm : VmWorld}
    (hb : w.vm.step b = some vm) (hl : w.vm.LeavesSwept b) : vm.Swept := by
  obtain ⟨st, c, hm, rfl⟩ := vmStep_cases hb
  exact hm.keepsSwept hids hsw hl

/-- What a step of an execution holds next: what it held, in a pool it leaves alone, or a VM that is
claimed from now on and was claimed by nobody. -/
theorem Apart.attempt_gains (h : w.Apart) (hids : w.vm.Ids) (hc : w.Clients) {x : Attempt}
    (hx : x ∈ w.attempts) {r : VmReply} {locked : List String} {n : VmNext}
    (hn : x.next w.vm.db locked r = some n) {vm : VmWorld} (hvm : w.callOf x locked r = some vm)
    {pc : VmPc} (hpc : n.pc = some pc) {s : String}
    (hs : ({ x with pc := pc } : Attempt).holds = some s) :
    (x.holds = some s ∧ vm = w.vm) ∨
      ((∃ r ∈ vm.db.vms.rows, r.sandboxId = s ∧ r.status = .claimed) ∧
        ∀ y ∈ w.attempts, y.holds ≠ some s) := by
  rcases Attempt.next_gains (hc x hx).1 hn hpc hs with hold | ⟨rfl, hnew⟩
  · refine Or.inl ⟨hold, ?_⟩
    rcases callOf_cases hvm with ⟨b, -, hcall, -⟩ | ⟨-, rfl⟩
    · rw [Attempt.call_of_keeps hold hn hpc hs] at hcall
      cases hcall
    · rfl
  · refine Or.inr ?_
    rcases callOf_cases hvm with ⟨b, -, hcall, hb⟩ | ⟨hnone, -⟩
    · obtain ⟨st, c, hm, rfl⟩ := vmStep_cases hb
      rcases hnew with ⟨fp, hxpc, hp⟩ | ⟨fp, hxpc⟩
      · rw [Attempt.call, hxpc] at hcall
        cases hcall
        cases hm
        refine ⟨PoolDb.claimed_claim hp, fun y hy hheld => ?_⟩
        obtain ⟨r, hr, rfl, hidle⟩ := PoolDb.idle_of_pick hp
        rw [h.status hy hr hheld] at hidle
        cases hidle
      · rw [Attempt.call, hxpc] at hcall
        cases hcall
        cases hm with
        | register i z hi s runner fp wf lease hf =>
          refine ⟨PoolDb.claimed_register, fun y hy hheld => ?_⟩
          obtain ⟨r, hr, hid, -⟩ := h.claimed y hy _ hheld
          exact hids.ne_of_fresh hf hr hid
    · rcases hnew with ⟨fp, hxpc, -⟩ | ⟨fp, hxpc⟩ <;>
        rw [Attempt.call, hxpc] at hnone <;> cases hnone rfl

/-- Whatever an execution calls, the others keep what they have. -/
theorem Apart.others_claimed (h : w.Apart) (hids : w.vm.Ids) (hc : w.Clients) {x : Attempt}
    (hx : x ∈ w.attempts) {r : VmReply} {locked : List String} {vm : VmWorld}
    (hvm : w.callOf x locked r = some vm) : ∀ y ∈ w.attempts, y ≠ x → ∀ s, y.holds = some s →
      ∃ r ∈ vm.db.vms.rows, r.sandboxId = s ∧ r.status = .claimed := by
  intro y hy hne s hs
  rcases callOf_cases hvm with ⟨b, -, hcall, hb⟩ | ⟨-, rfl⟩
  · have hmine : ∀ i, b = .release i s ∨ b = .forget i s → False := by
      intro i hback
      have hheld : x.holds = some s := by
        rcases hback with rfl | rfl
        · exact Attempt.holds_of_call (hc x hx).1 (Or.inl hcall)
        · exact Attempt.holds_of_call (hc x hx).1 (Or.inr hcall)
      exact hne (h.alone y hy x hx s hs hheld)
    refine h.claimed_step hids hb hy hs (fun i he => hmine i (Or.inl he))
      (fun i he => hmine i (Or.inr he)) ?_
    rintro store runners instanceId rfl
    exact absurd hcall Attempt.call_ne_releaseOrphans
  · exact h.claimed y hy s hs

/-- What an execution gets is not what another one has. -/
theorem Apart.others_apart (h : w.Apart) (hids : w.vm.Ids) (hc : w.Clients) {x : Attempt}
    (hx : x ∈ w.attempts) {r : VmReply} {locked : List String} {n : VmNext}
    (hn : x.next w.vm.db locked r = some n) {vm : VmWorld} (hvm : w.callOf x locked r = some vm)
    (s : String) : ∀ y ∈ w.attempts, y ≠ x → y.holds = some s → ∀ pc, n.pc = some pc →
      ({ x with pc := pc } : Attempt).holds ≠ some s := by
  intro y hy hne hys pc hpc hpcs
  rcases h.attempt_gains hids hc hx hn hvm hpc hpcs with ⟨hold, -⟩ | ⟨-, hnobody⟩
  · exact hne (h.alone y hy x hx s hys hold)
  · exact hnobody y hy hys

/-- **What the executions have from the pool stays theirs alone**, unless a reclaim frees it. -/
theorem Apart.step (h : w.Apart) (hr : fleetMachine.Reachable Machine.anyStep w) (hm : w.Moves a w')
    (hl : w.LeavesHeld a) : w'.Apart := by
  have hc := clients_of_reachable hr
  have hids : w.vm.Ids := VmWorld.ids_of_reachable (vm_reach hr)
  cases hm with
  | boot => exact ⟨h.claimed, h.alone, h.swept⟩
  | crash instanceId =>
    refine ⟨fun x hx => ?_, fun x hx y hy => ?_, h.swept⟩
    · exact h.claimed x (List.mem_filter.mp hx).1
    · exact h.alone x (List.mem_filter.mp hx).1 y (List.mem_filter.mp hy).1
  | run lease pool plan job vm hlive hvm =>
    have hnone : ∀ s, (⟨job, lease, w.vm.ctl.clients.length, Attempt.entry job⟩ : Attempt).holds ≠
        some s := by
      intro s hs
      rw [Attempt.holds_eq_some, Attempt.vm_entry] at hs
      cases hs.2
    refine ⟨fun x hx s hs => ?_, fun x hx y hy s hs hs' => ?_, ?_⟩
    · rcases List.mem_append.mp hx with hx | hx
      · exact h.claimed_step hids hvm hx hs nofun nofun nofun
      · obtain rfl := List.mem_singleton.mp hx
        exact absurd hs (hnone s)
    · rcases List.mem_append.mp hx with hx | hx
      · rcases List.mem_append.mp hy with hy | hy
        · exact h.alone x hx y hy s hs hs'
        · obtain rfl := List.mem_singleton.mp hy
          exact absurd hs' (hnone s)
      · obtain rfl := List.mem_singleton.mp hx
        exact absurd hs (hnone s)
    · exact swept_step hids h.swept hvm nofun
  | attempt i x hi r locked n hn vm hvm =>
    have hx := List.mem_of_getElem? hi
    have hd := distinct_of_reachable hr
    have hothers := h.others_claimed hids hc hx hvm
    refine ⟨fun y hy s hs => ?_, fun y hy z hz s hs hs' => ?_, ?_⟩
    · rcases Actors.mem_put_distinct hd hi hy with ⟨hy, hne⟩ | hmoved
      · exact hothers y hy hne s hs
      · obtain ⟨pc, hpc, rfl⟩ := Option.map_eq_some_iff.mp hmoved
        rcases h.attempt_gains hids hc hx hn hvm hpc hs with ⟨hold, rfl⟩ | ⟨hnew, -⟩
        · exact h.claimed x hx s hold
        · exact hnew
    · have hmoved := h.others_apart hids hc hx hn hvm s
      rcases Actors.mem_put_distinct hd hi hy with ⟨hy, hney⟩ | hy <;>
        rcases Actors.mem_put_distinct hd hi hz with ⟨hz, hnez⟩ | hz
      · exact h.alone y hy z hz s hs hs'
      · obtain ⟨pc, hpc, rfl⟩ := Option.map_eq_some_iff.mp hz
        exact absurd hs' (hmoved y hy hney hs pc hpc)
      · obtain ⟨pc, hpc, rfl⟩ := Option.map_eq_some_iff.mp hy
        exact absurd hs (hmoved z hz hnez hs' pc hpc)
      · exact Option.some.inj (hy.symm.trans hz)
    · rcases callOf_cases hvm with ⟨b, -, hcall, hb⟩ | ⟨-, rfl⟩
      · exact swept_step hids h.swept hb (h.leavesSwept hc hx hcall)
      · exact h.swept
  | pool b hb vm hvm =>
    refine ⟨fun x hx s hs => ?_, h.alone, swept_step hids h.swept hvm (leavesSwept_of_fromOutside hb)⟩
    refine h.claimed_step hids hvm hx hs ?_ ?_ ?_
    · rintro i rfl
      cases hb
    · rintro i rfl
      cases hb
    · rintro store runners instanceId rfl r hr rfl
      exact hl store runners instanceId rfl x hx r hr hs

/-- **An execution that begins alone leaves one job in every VM.** -/
theorem OneJob.step (h : w.OneJob) (ha : w.Apart) (hm : w.Moves a w') (hb : w.BeginsAlone a) :
    w'.OneJob := by
  cases hm with
  | boot | pool => exact h
  | crash instanceId =>
    exact fun x hx y hy => h x (List.mem_filter.mp hx).1 y (List.mem_filter.mp hy).1
  | run lease pool plan job vm hlive hvm =>
    have hno : ∀ s, Attempt.entry job ≠ .steps s := by
      intro s hs
      have hvm := Attempt.vm_entry job
      rw [hs] at hvm
      cases hvm
    intro x hx y hy s hs hs'
    rcases List.mem_append.mp hx with hx | hx
    · rcases List.mem_append.mp hy with hy | hy
      · exact h x hx y hy s hs hs'
      · obtain rfl := List.mem_singleton.mp hy
        exact absurd hs' (hno s)
    · obtain rfl := List.mem_singleton.mp hx
      exact absurd hs (hno s)
  | attempt i x hi r locked n hn vm hvm =>
    have hx := List.mem_of_getElem? hi
    -- the one that begins, and one that is in its steps
    have hbegins : ∀ y ∈ w.attempts, ∀ s, y.pc = .steps s → n.pc = some (.steps s) →
        x.job.id = y.job.id := by
      intro y hy s hs hpc
      obtain ⟨hxpc, rfl⟩ := Attempt.startJob_of_steps hn hpc
      by_contra hne
      obtain ⟨hxp, hyp⟩ := hb i locked rfl x hi s hxpc y hy hs hne
      refine hne (congrArg (fun x : Attempt => x.job.id) (ha.alone x hx y hy s ?_ ?_))
      · exact Attempt.holds_eq_some.mpr ⟨hxp, by rw [hxpc]; rfl⟩
      · exact Attempt.holds_eq_some.mpr ⟨hyp, by rw [hs]; rfl⟩
    intro y hy z hz s hs hs'
    rcases Actors.mem_put hy with hy | hy <;> rcases Actors.mem_put hz with hz | hz
    · exact h y hy z hz s hs hs'
    · obtain ⟨pc, hpc, rfl⟩ := Option.map_eq_some_iff.mp hz
      exact (hbegins y hy s hs (hpc.trans (congrArg some hs'))).symm
    · obtain ⟨pc, hpc, rfl⟩ := Option.map_eq_some_iff.mp hy
      exact hbegins z hz s hs' (hpc.trans (congrArg some hs))
    · obtain ⟨pc, -, rfl⟩ := Option.map_eq_some_iff.mp hy
      obtain ⟨pc', -, rfl⟩ := Option.map_eq_some_iff.mp hz
      rfl

/-- Where there is one job in every VM after a step, the execution that made it began alone. -/
theorem OneJob.beginsAlone (h : w'.OneJob) (hm : w.Moves a w') : w.BeginsAlone a := by
  rintro i locked rfl x hi s hxpc y hy hs hne
  cases hm with
  | attempt i x' hi' r locked n hn vm hvm =>
    obtain rfl := Option.some.inj (hi.symm.trans hi')
    have hnext : n = .goto (.steps s) := by
      unfold Attempt.next at hn
      rw [hxpc] at hn
      exact (Option.some.inj hn).symm
    subst hnext
    have hyx : y ≠ x := by
      rintro rfl
      exact hne rfl
    have hself : { x with pc := .steps s } ∈ Actors.put w.attempts i (some { x with pc := .steps s }) :=
      Actors.mem_put_self hi
    have hother : y ∈ Actors.put w.attempts i (some { x with pc := .steps s }) :=
      Actors.mem_put_of_ne hi hy hyx
    exact absurd (h _ hself y hother s rfl hs) hne

end Fleet

/-- **In a run whose executions begin alone and whose reclaims leave alone what executions have, no
two jobs are in their steps in one VM. In a run where none are, the executions begin alone.** -/
theorem oneJob_of_apart (now : Nat) (as : List FleetAct) :
    (fleetMachine.Throughout (fun w a _ => w.BeginsAlone a ∧ w.LeavesHeld a) (Fleet.start now) as →
      fleetMachine.Throughout (fun _ _ w' => w'.OneJob) (Fleet.start now) as) ∧
    (fleetMachine.Throughout (fun _ _ w' => w'.OneJob) (Fleet.start now) as →
      fleetMachine.Throughout (fun w a _ => w.BeginsAlone a) (Fleet.start now) as) := by
  have hreach : fleetMachine.Reachable Machine.anyStep (Fleet.start now) :=
    Machine.Reachable.init ⟨now, rfl⟩
  constructor
  · intro h
    have hstart : (Fleet.start now).Apart ∧ (Fleet.start now).OneJob := by
      refine ⟨⟨fun x hx => ?_, fun x hx => ?_, fun s hs => ?_⟩, fun x hx => ?_⟩
      · exact absurd hx List.not_mem_nil
      · exact absurd hx List.not_mem_nil
      · exact absurd hs List.not_mem_nil
      · exact absurd hx List.not_mem_nil
    refine h.of_inv hreach (I := fun w => w.Apart ∧ w.OneJob) hstart fun w a w' hr hI hstep hlaw => ?_
    have hm := fleet_cases hstep
    have hone := hI.2.step hI.1 hm hlaw.1
    exact ⟨⟨hI.1.step hr hm hlaw.2, hone⟩, hone⟩
  · refine Machine.Throughout.of_inv hreach (I := fun _ => True) trivial fun w a w' _ _ hstep h => ?_
    exact ⟨trivial, h.beginsAlone (fleet_cases hstep)⟩

/-! ## A job that names the VM of another -/

/-- `uses: net/host/sb-1`. -/
def deployInVm : JobPlan :=
  { JobPlan.plain "deploy" [] with target := ⟨some "net", some "host", some "sb-1", false⟩ }

/-- A job is in its steps in a VM of the pool, and another names that VM. -/
def nameTaken : List FleetAct :=
  takeVm ++ [.run ⟨"ci-1", 180⟩ .single deployInVm "r.deploy", .attempt 1 (.text "sb-1") [],
    .attempt 1 .ok [], .attempt 1 .ok []]

/-- Both are in their steps there. -/
theorem named_vm_shared : ¬ ∀ (now : Nat) (as : List FleetAct),
    fleetMachine.Throughout (fun _ _ w' => w'.OneJob) (Fleet.start now) as := by
  intro h
  have hrun : (fleetMachine.run (Fleet.start 0) (nameTaken ++ [.attempt 1 .ok []])).map
      (fun w => w.attempts.map fun x => (x.job.id, x.pc)) =
      some [("r.build", .steps "sb-1"), ("r.deploy", .steps "sb-1")] := by decide
  obtain ⟨w', hw', hdata⟩ := Option.map_eq_some_iff.mp hrun
  rw [Machine.run_concat] at hw'
  obtain ⟨w, hw, hstep⟩ := Option.bind_eq_some_iff.mp hw'
  refine Machine.not_throughout hw hstep (fun hone => ?_) (h 0 _)
  have hin : ∀ id, (id, VmPc.steps "sb-1") ∈ w'.attempts.map (fun x => (x.job.id, x.pc)) →
      ∃ x ∈ w'.attempts, x.pc = .steps "sb-1" ∧ x.job.id = id := by
    intro id hid
    obtain ⟨x, hx, he⟩ := List.mem_map.mp hid
    exact ⟨x, hx, congrArg Prod.snd he, congrArg Prod.fst he⟩
  rw [hdata] at hin
  obtain ⟨x, hx, hxpc, hxid⟩ := hin "r.build" List.mem_cons_self
  obtain ⟨y, hy, hypc, hyid⟩ := hin "r.deploy" (List.mem_cons_of_mem _ List.mem_cons_self)
  have hsame := hone x hx y hy _ hxpc hypc
  rw [hxid, hyid] at hsame
  exact absurd hsame (by decide)

end HeyoCi
