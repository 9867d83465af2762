import HeyoCi.Warm.Attempt

/-!
# The instances over one pool

Any number of instances run executions over one pool, each with a lease loop, and come and go.

* `Fleet`, `fleetMachine`: the instances, their executions and the pool;
* `Fleet.Moves`, `fleet_cases`: every way they can move;
* **`Fleet.vm_reach`**: what they do to the pool is a run of its clients;
* `Fleet.distinct_of_reachable`: executions are told apart by their clients;
* **`Fleet.call_enabled`**: an execution hands back only what it was given.
-/

namespace HeyoCi

/-- The pool, the instances that are up and their executions. -/
structure Fleet where
  vm : VmWorld
  live : List Lease
  attempts : List Attempt

inductive FleetAct where
  | boot (lease : Lease)
  | crash (instanceId : String)
  /-- An instance runs a job. -/
  | run (lease : Lease) (pool : Pool) (plan : JobPlan) (jobId : String)
  | attempt (i : Nat) (r : VmReply) (locked : List String)
  /-- Anything else that happens to the pool. -/
  | pool (a : VmAct)

/-- The clock, the sweeps, and the lease loops of the instances that are up. -/
def VmAct.fromOutside (live : List Lease) : VmAct → Bool
  | .tick _ | .take _ | .swept _ | .notSwept _ => true
  | .renewLeases lease => lease ∈ live
  | .releaseOrphans _ _ instanceId | .sweepStaleBuilds _ instanceId =>
    live.any (·.instanceId = instanceId)
  | _ => false

namespace Fleet

variable (w : Fleet)

/-- The id of an instance is new: no other instance and no row has it. -/
def New (lease : Lease) : Prop := (∀ l ∈ w.live, l.instanceId ≠ lease.instanceId) ∧
  ∀ r ∈ w.vm.db.vms.rows, r.leasedBy ≠ some lease.instanceId

instance (lease : Lease) : Decidable (w.New lease) := inferInstanceAs (Decidable (_ ∧ _))

/-- The pool after the call of an execution. -/
def callOf (x : Attempt) (locked : List String) (r : VmReply) : Option VmWorld :=
  match if r.ran then x.call locked else none with
  | some a => w.vm.step a
  | none => some w.vm

def step : FleetAct → Option Fleet
  | .boot lease => if w.New lease then some { w with live := lease :: w.live } else none
  | .crash instanceId => some { w with
      live := w.live.filter (·.instanceId ≠ instanceId)
      attempts := w.attempts.filter (·.lease.instanceId ≠ instanceId) }
  | .run lease pool plan jobId => if lease ∈ w.live then (VmJob.pick pool plan jobId).bind fun job =>
      (w.vm.step (.start jobId)).map fun vm => { w with
        vm := vm
        attempts := w.attempts ++ [⟨job, lease, w.vm.ctl.clients.length, Attempt.entry job⟩] }
    else none
  | .attempt i r locked => w.attempts[i]?.bind fun x => (x.next w.vm.db locked r).bind fun n =>
      (w.callOf x locked r).map fun vm => { w with
        vm := vm
        attempts := Actors.put w.attempts i (n.pc.map fun pc => { x with pc := pc }) }
  | .pool a => if a.fromOutside w.live then (w.vm.step a).map fun vm => { w with vm := vm } else none

def start (now : Nat) : Fleet := ⟨.start now, [], []⟩

end Fleet

/-- The instances over one pool. -/
def fleetMachine : Machine Fleet FleetAct where
  init w := ∃ now, w = Fleet.start now
  step := Fleet.step

/-- What a step of the fleet can be. -/
inductive Fleet.Moves (w : Fleet) : FleetAct → Fleet → Prop
  | boot (lease : Lease) (h : w.New lease) :
      Moves w (.boot lease) { w with live := lease :: w.live }
  | crash (instanceId : String) : Moves w (.crash instanceId) { w with
      live := w.live.filter (·.instanceId ≠ instanceId)
      attempts := w.attempts.filter (·.lease.instanceId ≠ instanceId) }
  | run (lease : Lease) (pool : Pool) (plan : JobPlan) (job : VmJob) (vm : VmWorld)
      (hl : lease ∈ w.live) (hvm : w.vm.step (.start job.id) = some vm) :
      Moves w (.run lease pool plan job.id) { w with
        vm := vm
        attempts := w.attempts ++ [⟨job, lease, w.vm.ctl.clients.length, Attempt.entry job⟩] }
  | attempt (i : Nat) (x : Attempt) (hi : w.attempts[i]? = some x) (r : VmReply)
      (locked : List String) (n : VmNext) (hn : x.next w.vm.db locked r = some n) (vm : VmWorld)
      (hvm : w.callOf x locked r = some vm) :
      Moves w (.attempt i r locked) { w with
        vm := vm
        attempts := Actors.put w.attempts i (n.pc.map fun pc => { x with pc := pc }) }
  | pool (a : VmAct) (ha : a.fromOutside w.live = true) (vm : VmWorld) (hvm : w.vm.step a = some vm) :
      Moves w (.pool a) { w with vm := vm }

theorem VmJob.id_of_pick {pool : Pool} {plan : JobPlan} {id : String} {job : VmJob}
    (h : VmJob.pick pool plan id = some job) : job.id = id := by
  unfold pick at h
  split_ifs at h
  split at h
  · cases h
    rfl
  · cases h

/-- **Every way the instances can move.** -/
theorem fleet_cases {w w' : Fleet} {a : FleetAct} (h : fleetMachine.step w a = some w') :
    w.Moves a w' := by
  change w.step a = some w' at h
  cases a with
  | boot lease =>
    simp only [Fleet.step] at h
    split_ifs at h with hn
    cases h
    exact .boot lease hn
  | crash instanceId =>
    cases h
    exact .crash instanceId
  | run lease pool plan jobId =>
    simp only [Fleet.step] at h
    split_ifs at h with hl
    obtain ⟨job, hjob, h⟩ := Option.bind_eq_some_iff.mp h
    obtain ⟨vm, hvm, rfl⟩ := Option.map_eq_some_iff.mp h
    obtain rfl := VmJob.id_of_pick hjob
    exact .run lease pool plan job vm hl hvm
  | attempt i r locked =>
    obtain ⟨x, hi, h⟩ := Option.bind_eq_some_iff.mp h
    obtain ⟨n, hn, h⟩ := Option.bind_eq_some_iff.mp h
    obtain ⟨vm, hvm, rfl⟩ := Option.map_eq_some_iff.mp h
    exact .attempt i x hi r locked n hn vm hvm
  | pool a =>
    simp only [Fleet.step] at h
    split_ifs at h with ha
    obtain ⟨vm, hvm, rfl⟩ := Option.map_eq_some_iff.mp h
    exact .pool a ha vm hvm

namespace Fleet

variable {w w' : Fleet} {a : FleetAct}

theorem callOf_cases {x : Attempt} {locked : List String} {r : VmReply} {vm : VmWorld}
    (h : w.callOf x locked r = some vm) :
    (∃ a, r.ran = true ∧ x.call locked = some a ∧ w.vm.step a = some vm) ∨
      ((r.ran = true → x.call locked = none) ∧ vm = w.vm) := by
  unfold callOf at h
  split at h
  · rename_i a ha
    split_ifs at ha with hr
    exact Or.inl ⟨a, hr, ha, h⟩
  · rename_i ha
    refine Or.inr ⟨fun hr => ?_, (Option.some.inj h).symm⟩
    rwa [if_pos hr] at ha

/-- A step of the fleet is a call of the pool or leaves the pool alone. -/
theorem Moves.vm (h : w.Moves a w') : (∃ b, w.vm.step b = some w'.vm) ∨ w'.vm = w.vm := by
  cases h with
  | boot | crash => exact Or.inr rfl
  | run lease pool plan job vm hl hvm => exact Or.inl ⟨_, hvm⟩
  | attempt i x hi r locked n hn vm hvm =>
    rcases callOf_cases hvm with ⟨b, -, -, hb⟩ | ⟨-, rfl⟩
    · exact Or.inl ⟨b, hb⟩
    · exact Or.inr rfl
  | pool b hb vm hvm => exact Or.inl ⟨b, hvm⟩

end Fleet

/-- **The executions are clients of the pool**: what the instances do to it is a run of the clients. -/
theorem Fleet.vm_reach {w : Fleet} (h : fleetMachine.Reachable Machine.anyStep w) :
    vmMachine.Reachable Machine.anyStep w.vm := by
  refine h.inv (fun w => vmMachine.Reachable Machine.anyStep w.vm) ?_ fun w a w' _ hI _ hstep => ?_
  · rintro _ ⟨now, rfl⟩
    exact Machine.Reachable.init ⟨now, rfl⟩
  · rcases (fleet_cases hstep).vm with ⟨b, hb⟩ | hsame
    · exact hI.step trivial hb
    · rw [hsame]
      exact hI

/-! ## Executions hand back only what they were given -/

/-- The execution is the client at its place, and was given what it holds. -/
def Attempt.Linked (x : Attempt) (c : VmCtl) : Prop :=
  ∃ y, c.clients[x.client]? = some y ∧ y.job = x.job.id ∧ ∀ s, x.holds = some s → s ∈ y.obtained

theorem Attempt.Linked.step {x : Attempt} {w vm : VmWorld} {b : VmAct} (h : x.Linked w.ctl)
    (hb : w.step b = some vm) : x.Linked vm.ctl := by
  obtain ⟨st, c, hm, rfl⟩ := vmStep_cases hb
  obtain ⟨y, hy, hjob, hheld⟩ := h
  obtain ⟨y', hy', hjob', hsub⟩ := hm.client hy
  exact ⟨y', hy', hjob'.trans hjob, fun s hs => hsub s (hheld s hs)⟩

def Fleet.Clients (w : Fleet) : Prop := ∀ x ∈ w.attempts, x.Apt ∧ x.Linked w.vm.ctl

theorem Attempt.existing_entry {job : VmJob} {b : Bool} (h : (entry job).existing = some b) :
    job.existingVm.isSome = b := by
  unfold entry at h
  split_ifs at h
  · cases h
  · exact existing_machine h

theorem Attempt.vm_entry (job : VmJob) : (entry job).vm = none := by
  unfold entry machine
  split_ifs
  · rfl
  · cases job.existingVm <;> rfl

/-- An execution that moved is still the client at its place, and was given what it got. -/
theorem Fleet.linked_next {w : Fleet} {x : Attempt} {r : VmReply} {locked : List String}
    {n : VmNext} {vm : VmWorld} {pc : VmPc} (ha : x.Apt) (hl : x.Linked w.vm.ctl)
    (hn : x.next w.vm.db locked r = some n) (hpc : n.pc = some pc)
    (hvm : w.callOf x locked r = some vm) : ({ x with pc := pc } : Attempt).Linked vm.ctl := by
  have hstay : x.Linked vm.ctl := by
    rcases callOf_cases hvm with ⟨b, -, -, hb⟩ | ⟨-, rfl⟩
    · exact hl.step hb
    · exact hl
  obtain ⟨y, hy, hjob, hheld⟩ := hstay
  refine ⟨y, hy, hjob, fun s hs => ?_⟩
  rcases Attempt.next_gains ha hn hpc hs with hold | ⟨rfl, hnew⟩
  · exact hheld s hold
  · have hgiven : ∃ y', vm.ctl.clients[x.client]? = some y' ∧ s ∈ y'.obtained := by
      rcases callOf_cases hvm with ⟨b, -, hcall, hb⟩ | ⟨hnone, -⟩
      · obtain ⟨st, c, hm, rfl⟩ := vmStep_cases hb
        rcases hnew with ⟨fp, hx, hp⟩ | ⟨fp, hx⟩
        · rw [Attempt.call, hx] at hcall
          cases hcall
          exact hm.claimed_given hp
        · rw [Attempt.call, hx] at hcall
          cases hcall
          exact hm.registered_given
      · have hnone := hnone rfl
        rcases hnew with ⟨fp, hx, -⟩ | ⟨fp, hx⟩ <;> rw [Attempt.call, hx] at hnone <;> cases hnone
    obtain ⟨y', hy', hs'⟩ := hgiven
    obtain rfl := Option.some.inj (hy'.symm.trans hy)
    exact hs'

theorem Fleet.Clients.step {w w' : Fleet} {a : FleetAct} (hw : w.Clients) (h : w.Moves a w') :
    w'.Clients := by
  intro x hx
  cases h with
  | boot => exact hw x hx
  | crash => exact hw x (List.mem_filter.mp hx).1
  | run lease pool plan job vm hl hvm =>
    rcases List.mem_append.mp hx with hx | hx
    · exact ⟨(hw x hx).1, (hw x hx).2.step hvm⟩
    · obtain rfl := List.mem_singleton.mp hx
      refine ⟨fun b => Attempt.existing_entry, ⟨job.id, []⟩, ?_, rfl, fun s hs => ?_⟩
      · cases hvm
        simp
      · rw [Attempt.holds_eq_some, Attempt.vm_entry] at hs
        cases hs.2
  | attempt i x₀ hi r locked n hn vm hvm =>
    have hx₀ := hw x₀ (List.mem_of_getElem? hi)
    rcases Actors.mem_put hx with hold | hmoved
    · refine ⟨(hw x hold).1, ?_⟩
      rcases callOf_cases hvm with ⟨b, -, -, hb⟩ | ⟨-, rfl⟩
      · exact (hw x hold).2.step hb
      · exact (hw x hold).2
    · obtain ⟨pc, hpc, rfl⟩ := Option.map_eq_some_iff.mp hmoved
      exact ⟨Attempt.apt_next hx₀.1 hn hpc, linked_next hx₀.1 hx₀.2 hn hpc hvm⟩
  | pool b hb vm hvm => exact ⟨(hw x hx).1, (hw x hx).2.step hvm⟩

theorem Fleet.clients_of_reachable {w : Fleet} (h : fleetMachine.Reachable Machine.anyStep w) :
    w.Clients := by
  refine h.inv Fleet.Clients ?_ fun w a w' _ hI _ hstep => hI.step (fleet_cases hstep)
  rintro _ ⟨now, rfl⟩ x hx
  exact absurd hx List.not_mem_nil

theorem Attempt.Linked.lt {x : Attempt} {c : VmCtl} (h : x.Linked c) :
    x.client < c.clients.length := by
  obtain ⟨y, hy, -⟩ := h
  exact (List.getElem?_eq_some_iff.mp hy).1

/-- **No two executions are one client.** -/
theorem Fleet.distinct_of_reachable {w : Fleet} (h : fleetMachine.Reachable Machine.anyStep w) :
    (w.attempts.map (·.client)).Nodup := by
  refine h.inv (fun w => (w.attempts.map (·.client)).Nodup) ?_ fun w a w' hr hI _ hstep => ?_
  · rintro _ ⟨now, rfl⟩
    exact List.nodup_nil
  · cases fleet_cases hstep with
    | boot | pool => exact hI
    | crash => exact (List.Sublist.map _ List.filter_sublist).nodup hI
    | run lease pool plan job vm hl hvm =>
      rw [List.map_append, List.map_singleton, List.nodup_append]
      refine ⟨hI, List.nodup_singleton _, fun c hc d hd hcd => ?_⟩
      obtain ⟨x, hx, rfl⟩ := List.mem_map.mp hc
      have hlt := (clients_of_reachable hr x hx).2.lt
      rw [hcd, List.mem_singleton.mp hd] at hlt
      exact lt_irrefl _ hlt
    | attempt i x hi r locked n hn vm hvm =>
      refine (Actors.map_put_sublist hi fun y hy => ?_).nodup hI
      obtain ⟨pc, -, rfl⟩ := Option.map_eq_some_iff.mp hy
      rfl

/-- **An execution hands back only what it was given**, so the pool takes its calls, as long as the
daemons give out new ids. -/
theorem Fleet.call_enabled {w : Fleet} (h : fleetMachine.Reachable Machine.anyStep w) {x : Attempt}
    (hx : x ∈ w.attempts) {locked : List String} {b : VmAct} (hb : x.call locked = some b)
    (hfresh : ∀ fp s, x.pc = .register fp s → w.vm.ctl.Fresh s) : (w.vm.step b).isSome = true := by
  obtain ⟨hapt, y, hy, -, hheld⟩ := clients_of_reachable h x hx
  have hown : ∀ s, x.pc.vm = some s → x.pc.existing = some false → s ∈ y.obtained := by
    intro s hs he
    have hnone : x.job.existingVm = none := by simpa using hapt false he
    exact hheld s (Attempt.holds_eq_some.mpr ⟨hnone, hs⟩)
  cases hpc : x.pc <;> rw [Attempt.call, hpc] at hb <;> cases hb
  case claim | beginBuild | clearBuild => simp [VmWorld.step, VmWorld.act, hy]
  case forgetUnusable | forget | release =>
    have hs := hown _ (by rw [hpc]; rfl) (by rw [hpc]; rfl)
    simp [VmWorld.step, VmWorld.act, hy, hs]
  case register =>
    have hs := hfresh _ _ hpc
    simp [VmWorld.step, VmWorld.act, hy, hs]

end HeyoCi
