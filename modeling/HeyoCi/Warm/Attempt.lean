import HeyoCi.Dispatch.Place
import HeyoCi.Warm.Clients

/-!
# How an execution gets and returns its VM

`run_claimed` takes a VM from the pool or has one created, runs the job in it and gives it back.
Between the two there are many exits.

* `VmJob`: what it is called with; `pickRunner_agrees`;
* `VmPc`, `Attempt`: the next thing an execution does with its VM;
* `Attempt.call`, `Attempt.next`: the call of the pool it makes there, and where it goes on;
* `Attempt.holds`, `VmPc.leaves`: the VM it has, and the steps that go on without giving it back;
* **`Attempt.next_holds`**, `Attempt.next_gains`: how it loses a VM, and how it gets one.
-/

namespace HeyoCi

/-- What `uses:` can say: who names a VM names its host. -/
def Target.Named (t : Target) : Prop := t.vm.isSome → t.node.isSome

instance (t : Target) : Decidable t.Named := inferInstanceAs (Decidable (_ → _))

theorem place_vm {pool : Pool} {plan : JobPlan} {p : Placement} (hn : plan.target.Named)
    (h : place pool plan = .ok p) : p.vm.isSome = plan.target.vm.isSome := by
  unfold place at h
  by_cases hl : plan.target.isLocal = true
  · rw [if_pos hl] at h
    split_ifs at h
    split at h
    · cases h
      rfl
    · cases h
  · rw [if_neg hl] at h
    cases hnet : networkOf pool plan with
    | error e =>
      rw [hnet] at h
      cases h
    | ok network =>
      rw [hnet] at h
      simp only [Except.bind] at h
      cases hnode : plan.target.node with
      | none =>
        simp only [hnode] at h
        cases h
        cases hv : plan.target.vm with
        | none => rfl
        | some v =>
          have hnamed := hn (by rw [hv]; rfl)
          rw [hnode] at hnamed
          cases hnamed
      | some wanted =>
        simp only [hnode] at h
        split at h
        · cases h
          rfl
        · split_ifs at h with hf
          cases h
          rw [hf.2]

/-- Where a job runs and what it names agree on whether there is a VM to use. -/
theorem pickRunner_agrees {pool : Pool} {plan : JobPlan} {runner : String} {vm : Option String}
    (hn : plan.target.Named) (h : pickRunner pool plan = .ok (runner, vm)) :
    vm.isSome = plan.target.isExistingVm := by
  unfold pickRunner at h
  cases hp : place pool plan with
  | error e =>
    rw [hp] at h
    cases h
  | ok p =>
    have hvm := place_vm hn hp
    rw [hp] at h
    simp only [Except.bind] at h
    split at h
    · split_ifs at h
      cases h
      exact hvm
    · split at h
      · cases h
        exact hvm
      · cases h

/-- A job that an execution has claimed, with the host it runs on. -/
structure VmJob where
  id : String
  plan : JobPlan
  runner : String
  /-- The VM that `uses:` names. -/
  existingVm : Option String
  agrees : existingVm.isSome = plan.target.isExistingVm

/-- The job of a plan, if a host takes it. -/
def VmJob.pick (pool : Pool) (plan : JobPlan) (id : String) : Option VmJob :=
  if hn : plan.target.Named then match h : pickRunner pool plan with
    | .ok (runner, vm) => some ⟨id, plan, runner, vm, pickRunner_agrees hn h⟩
    | .error _ => none
  else none

/-- The next thing an execution does with its VM. -/
inductive VmPc where
  | ensureImage
  | resolveExisting (wanted : String)
  | openExisting (sandboxId : String)
  | ensureExisting (sandboxId : String)
  | fingerprint
  | options (fp : String)
  | claim (fp : String)
  | openVm (fp sandboxId : String)
  | ensureRunning (fp sandboxId : String)
  | renewTtl (sandboxId : String)
  | forgetUnusable (fp sandboxId : String)
  | beginBuild (fp : String)
  | create (fp : String) (building : Bool)
  | clearBuild (fp : String) (created : Option String)
  | register (fp sandboxId : String)
  | startJob (sandboxId : String)
  /-- Checkout, the steps and the console. -/
  | steps (sandboxId : String)
  /-- `release_vm` of a job that was started, or that something else had finished. -/
  | destroy (sandboxId : String) (started : Bool)
  | forget (sandboxId : String) (started : Bool)
  | renewReleased (sandboxId : String) (started : Bool)
  | release (sandboxId : String) (started : Bool)
  /-- The writes of the outcome. -/
  | finish
  deriving Repr, DecidableEq

/-- The VM an execution works with. -/
def VmPc.vm : VmPc → Option String
  | openVm _ s | ensureRunning _ s | renewTtl s | forgetUnusable _ s | startJob s | steps s
  | destroy s _ | forget s _ | renewReleased s _ | release s _ => some s
  | _ => none

/-- Whether a job has to name a VM, or must not, to come here. -/
def VmPc.existing : VmPc → Option Bool
  | ensureImage | startJob _ | steps _ | finish => none
  | resolveExisting _ | openExisting _ | ensureExisting _ => some true
  | _ => some false

/-- How a call ends. -/
inductive VmReply where
  | ok
  /-- `start_job` affects no row; the steps leave a corrupted guest. -/
  | no
  /-- A fingerprint or a sandbox id. -/
  | text (s : String)
  /-- An error, of a call that was carried out or not. -/
  | failed (ran : Bool)
  /-- The time limit of the job, after the call was carried out or before. -/
  | cutOff (ran : Bool)
  deriving Repr, DecidableEq

/-- Whether the call was carried out. -/
def VmReply.ran : VmReply → Bool
  | failed ran | cutOff ran => ran
  | _ => true

/-- Where an execution goes on. -/
inductive VmNext where
  | goto (pc : VmPc)
  | ended

def VmNext.pc : VmNext → Option VmPc
  | goto pc => some pc
  | ended => none

/-- An execution that has a VM goes on without it, though its row was not written: an error leaves
`run_claimed`, the error of a write of the pool is dropped, or the time limit cuts in. -/
def VmPc.leaves : VmPc → VmReply → Bool
  | openVm .., .failed _ | startJob _, .failed _ => true
  | forgetUnusable .., .failed ran | forget .., .failed ran | release .., .failed ran
  | forgetUnusable .., .cutOff ran | forget .., .cutOff ran | release .., .cutOff ran => !ran
  | pc, .cutOff _ => pc.vm.isSome
  | _, _ => false

/-- An execution of `run_claimed`, by its place among the clients of the pool. -/
structure Attempt where
  job : VmJob
  lease : Lease
  client : Nat
  pc : VmPc

namespace Attempt

/-- After the image is there. -/
def machine (job : VmJob) : VmPc := match job.existingVm with
  | some wanted => .resolveExisting wanted
  | none => .fingerprint

/-- The first thing `run_claimed` does about a VM. -/
def entry (job : VmJob) : VmPc := if job.plan.vm.build.isSome then .ensureImage else machine job

/-- After `release_vm`. -/
def released (started : Bool) : VmNext := if started then .goto .finish else .ended

/-- `release_vm`. -/
def releaseVm (job : VmJob) (sandboxId : String) (guestCorrupted started : Bool) : VmNext :=
  if job.plan.target.isExistingVm then released started
  else if !job.plan.vm.reuse || guestCorrupted then .goto (.destroy sandboxId started)
  else .goto (.renewReleased sandboxId started)

/-- The call of the pool an execution makes. -/
def call (x : Attempt) (locked : List String) : Option VmAct := match x.pc with
  | .claim fp => some (.claim x.client x.job.runner fp x.lease locked)
  | .forgetUnusable _ s | .forget s _ => some (.forget x.client s)
  | .beginBuild fp => some (.beginBuild x.client x.job.runner fp x.job.plan.baseId x.lease)
  | .clearBuild _ _ => some (.clearBuild x.client)
  | .register fp s => some (.register x.client s x.job.runner fp x.job.plan.baseId x.lease)
  | .release s _ => some (.release x.client s)
  | _ => none

/-- Where an execution goes on, if the reply is one to the call it makes. -/
def next (x : Attempt) (db : PoolDb) (locked : List String) (r : VmReply) : Option VmNext :=
  match x.pc, r with
  | _, .cutOff _ => some .ended
  | .ensureImage, .ok => some (.goto (machine x.job))
  | .resolveExisting _, .text s => some (.goto (.openExisting s))
  | .openExisting s, .ok => some (.goto (.ensureExisting s))
  | .ensureExisting s, .ok => some (.goto (.startJob s))
  | .fingerprint, .text fp => some (.goto (.options fp))
  | .options fp, .ok => some (.goto (if x.job.plan.vm.reuse then .claim fp else .beginBuild fp))
  | .claim fp, .ok => some (.goto (match db.pick x.job.runner fp locked with
    | some s => .openVm fp s
    | none => .beginBuild fp))
  | .openVm fp s, .ok => some (.goto (.ensureRunning fp s))
  | .ensureRunning _ s, .ok => some (.goto (.renewTtl s))
  | .ensureRunning fp s, .failed _ => some (.goto (.forgetUnusable fp s))
  -- the errors of these two are dropped
  | .renewTtl s, .ok | .renewTtl s, .failed _ => some (.goto (.startJob s))
  | .forgetUnusable fp _, .ok | .forgetUnusable fp _, .failed _ => some (.goto (.beginBuild fp))
  | .beginBuild fp, .ok => some (.goto (.create fp true))
  | .beginBuild fp, .failed _ => some (.goto (.create fp false))
  | .create fp building, .text s =>
    some (.goto (if building then .clearBuild fp (some s) else .register fp s))
  | .create fp building, .failed _ => some (if building then .goto (.clearBuild fp none) else .ended)
  | .clearBuild fp created, .ok | .clearBuild fp created, .failed _ => some (match created with
    | some s => .goto (.register fp s)
    | none => .ended)
  | .register _ s, .ok => some (.goto (.startJob s))
  | .startJob s, .ok => some (.goto (.steps s))
  | .startJob s, .no => some (releaseVm x.job s false false)
  -- an error of the steps is the outcome of the job
  | .steps s, .ok | .steps s, .failed _ => some (releaseVm x.job s false true)
  | .steps s, .no => some (releaseVm x.job s true true)
  -- `release_vm` logs its errors
  | .destroy s started, .ok | .destroy s started, .failed _ => some (.goto (.forget s started))
  | .renewReleased s started, .ok | .renewReleased s started, .failed _ =>
    some (.goto (.release s started))
  | .forget _ started, .ok | .forget _ started, .failed _ | .release _ started, .ok
  | .release _ started, .failed _ => some (released started)
  | .finish, .ok => some .ended
  -- every other error leaves `run_claimed`
  | _, .failed _ => some .ended
  | _, _ => none

/-- The VM of the pool an execution holds. -/
def holds (x : Attempt) : Option String := if x.job.existingVm = none then x.pc.vm else none

theorem holds_eq_some {x : Attempt} {s : String} :
    x.holds = some s ↔ x.job.existingVm = none ∧ x.pc.vm = some s := by
  unfold holds
  split_ifs with h <;> simp [h]

/-- The job names a VM exactly as its place asks for. -/
def Apt (x : Attempt) : Prop := ∀ b, x.pc.existing = some b → x.job.existingVm.isSome = b

/-! ## What a step does with the VM -/

theorem releaseVm_cases {job : VmJob} (h : job.existingVm = none) (s : String)
    (guestCorrupted started : Bool) :
    releaseVm job s guestCorrupted started = .goto (.destroy s started) ∨
      releaseVm job s guestCorrupted started = .goto (.renewReleased s started) := by
  have hex : job.plan.target.isExistingVm = false := by
    rw [← job.agrees, h]
    rfl
  rw [releaseVm, if_neg (by rw [hex]; exact Bool.false_ne_true)]
  split_ifs
  · exact Or.inl rfl
  · exact Or.inr rfl

theorem pc_releaseVm {job : VmJob} (h : job.existingVm = none) (s : String)
    (guestCorrupted started : Bool) :
    (releaseVm job s guestCorrupted started).pc.bind VmPc.vm = some s := by
  rcases releaseVm_cases h s guestCorrupted started with h | h <;> rw [h] <;> rfl

theorem existing_releaseVm {job : VmJob} {s : String} {guestCorrupted started b : Bool} {pc : VmPc}
    (h : (releaseVm job s guestCorrupted started).pc = some pc) (hb : pc.existing = some b) :
    job.existingVm.isSome = b := by
  cases hv : job.existingVm with
  | none =>
    rcases releaseVm_cases hv s guestCorrupted started with h' | h' <;> rw [h'] at h <;> cases h <;>
      cases hb <;> rfl
  | some v =>
    have hex : job.plan.target.isExistingVm = true := by
      rw [← job.agrees, hv]
      rfl
    rw [releaseVm, if_pos hex] at h
    cases started <;> cases h
    cases hb

theorem existing_machine {job : VmJob} {b : Bool} (h : (machine job).existing = some b) :
    job.existingVm.isSome = b := by
  unfold machine at h
  cases hv : job.existingVm <;> rw [hv] at h <;> cases h <;> rfl

variable {x : Attempt} {db : PoolDb} {locked : List String} {r : VmReply} {n : VmNext} {pc : VmPc}

/-- Neither of the two ways to a VM leads to the other. -/
theorem existing_next {b : Bool} (h : x.next db locked r = some n) (hpc : n.pc = some pc)
    (hx : x.pc.existing = some b) : pc.existing = none ∨ pc.existing = some b := by
  obtain ⟨job, lease, client, pc₀⟩ := x
  cases pc₀ <;> cases hx <;> cases r <;> simp only [next, Option.some.injEq, reduceCtorEq] at h <;>
    subst h <;> grind [VmNext.pc, VmPc.existing, released]

theorem apt_next (hx : x.Apt) (h : x.next db locked r = some n) (hpc : n.pc = some pc) :
    ({ x with pc := pc } : Attempt).Apt := by
  intro b hb
  cases hex : x.pc.existing with
  | some b' =>
    rcases existing_next h hpc hex with hnone | hsome
    · rw [hnone] at hb
      cases hb
    · rw [hsome] at hb
      cases hb
      exact hx b hex
  | none =>
    obtain ⟨job, lease, client, pc₀⟩ := x
    cases pc₀ with
    | ensureImage =>
      cases r <;> cases h <;> cases hpc
      exact existing_machine hb
    | startJob s | steps s =>
      cases r <;> cases h
      all_goals first
        | exact existing_releaseVm hpc hb
        | (cases hpc; cases hb)
        | cases hpc
    | finish =>
      cases r <;> cases h <;> cases hpc
    | _ => cases hex

/-- An execution that holds a VM goes on with it, hands it back, or leaves it. -/
theorem next_holds {s : String} (h : x.next db locked r = some n) (hs : x.holds = some s) :
    n.pc.bind VmPc.vm = some s ∨ (r.ran = true ∧ (x.call locked = some (.release x.client s) ∨
      x.call locked = some (.forget x.client s))) ∨ x.pc.leaves r = true := by
  obtain ⟨hex, hs⟩ := holds_eq_some.mp hs
  obtain ⟨job, lease, client, pc₀⟩ := x
  cases pc₀ <;> simp only [VmPc.vm, Option.some.injEq, reduceCtorEq] at hs <;> subst hs
  case startJob | steps =>
    cases r <;> cases h
    all_goals first
      | exact Or.inl rfl
      | exact Or.inl (pc_releaseVm hex _ _ _)
      | exact Or.inr (Or.inr rfl)
  all_goals
    cases r <;> cases h <;>
      simp [VmPc.leaves, VmPc.vm, VmNext.pc, VmReply.ran, call]

/-- It gets a VM from `claim` or from `register`. -/
theorem next_gains {s : String} (hx : x.Apt) (h : x.next db locked r = some n)
    (hpc : n.pc = some pc) (hs : ({ x with pc := pc } : Attempt).holds = some s) :
    x.holds = some s ∨ (r = .ok ∧ ((∃ fp, x.pc = .claim fp ∧
      db.pick x.job.runner fp locked = some s) ∨ ∃ fp, x.pc = .register fp s)) := by
  obtain ⟨hex, hs⟩ := holds_eq_some.mp hs
  rw [holds_eq_some]
  obtain ⟨job, lease, client, pc₀⟩ := x
  have hne : pc₀.existing ≠ some true := by
    intro he
    have := hx true he
    rw [hex] at this
    cases this
  cases pc₀ with
  | resolveExisting | openExisting | ensureExisting => exact absurd rfl hne
  | ensureImage =>
    cases r <;> cases h <;> cases hpc
    rw [machine, hex] at hs
    cases hs
  | startJob s' | steps s' =>
    refine Or.inl ⟨hex, ?_⟩
    cases r <;> cases h
    all_goals first
      | exact (pc_releaseVm hex s' _ _).symm.trans (by rw [hpc]; exact hs)
      | (cases hpc; exact hs)
      | cases hpc
  | _ =>
    cases r <;> cases h <;>
      grind [VmNext.pc, VmPc.vm, released]

end Attempt

end HeyoCi
