import HeyoCi.Lib.Actors
import HeyoCi.Lib.Machine
import HeyoCi.Warm.Statements

/-!
# The clients of the warm pool as a machine

Executions of jobs, by any number of instances, call the pool in any order; a client releases and
forgets only sandboxes it was given. Beside them run the leases, the reclaims and the sweeps.

* `VmClient`, `VmCtl`, `VmWorld`: a client and what it was given, the clients, the pool with them;
* `VmAct`, `VmWorld.act`, `vmMachine`: the calls and the steps;
* `VmWorld.Ids`: which ids can be in the table; `VmWorld.ids_of_reachable`;
* `VmWorld.Moves`, **`vmStep_cases`**: every way the machine can move.
-/

namespace HeyoCi

/-- An execution of a job, with the sandboxes `claim` and `register` gave it. -/
structure VmClient where
  job : String
  obtained : List String
  deriving Repr, DecidableEq

/-- Everything but the table. -/
structure VmCtl where
  clients : List VmClient
  /-- The sandboxes sweeps took, still to be destroyed and forgotten. -/
  sweeps : List String
  /-- The ids the daemons have given out. -/
  assigned : List String
  deriving Repr

structure VmWorld where
  db : PoolDb
  ctl : VmCtl

inductive VmAct where
  | tick (d : Nat)
  | start (job : String)
  | claim (i : Nat) (runner fingerprint : String) (lease : Lease) (locked : List String)
  | beginBuild (i : Nat) (runner fingerprint workflowId : String) (lease : Lease)
  /-- `forget` of the placeholder of a VM that is not being created any more. -/
  | clearBuild (i : Nat)
  | register (i : Nat) (sandboxId runner fingerprint workflowId : String) (lease : Lease)
  | release (i : Nat) (sandboxId : String)
  | forget (i : Nat) (sandboxId : String)
  | renewLeases (lease : Lease)
  | releaseOrphans (store : Db) (runners : List String) (instanceId : String)
  | sweepStaleBuilds (runners : List String) (instanceId : String)
  | take (s : Sweep)
  /-- The daemon destroyed the `k`-th of the VMs sweeps took, and its row is forgotten. -/
  | swept (k : Nat)
  /-- It could not be destroyed, or its row not be forgotten. -/
  | notSwept (k : Nat)

namespace VmCtl

/-- The client at place `i` was given sandboxes. -/
def give (c : VmCtl) (i : Nat) (x : VmClient) (ids : List String) : VmCtl :=
  { c with clients := Actors.put c.clients i (some { x with obtained := x.obtained ++ ids }) }

theorem getElem?_give {c : VmCtl} {i j : Nat} {x : VmClient} {ids : List String}
    (hi : c.clients[i]? = some x) : (c.give i x ids).clients[j]? =
      if i = j then some { x with obtained := x.obtained ++ ids } else c.clients[j]? := by
  obtain ⟨hlt, -⟩ := List.getElem?_eq_some_iff.mp hi
  rw [give, Actors.put, List.getElem?_set]
  split_ifs
  · rfl
  · rfl

theorem mem_give {c : VmCtl} {i : Nat} {x y : VmClient} {ids : List String}
    (h : y ∈ (c.give i x ids).clients) :
    y ∈ c.clients ∨ y = { x with obtained := x.obtained ++ ids } := by
  change y ∈ Actors.put c.clients i (some { x with obtained := x.obtained ++ ids }) at h
  rcases Actors.mem_put h with h | h
  · exact Or.inl h
  · exact Or.inr (Option.some.inj h).symm

end VmCtl

/-- A daemon gives out an id it never gave out before, and never one that reads like a
placeholder. -/
def VmCtl.Fresh (c : VmCtl) (sandboxId : String) : Prop :=
  sandboxId ∉ c.assigned ∧ ¬ "building-".toList <+: sandboxId.toList

instance (c : VmCtl) (s : String) : Decidable (c.Fresh s) := inferInstanceAs (Decidable (_ ∧ _))

theorem VmCtl.Fresh.ne_buildingId {c : VmCtl} {s : String} (h : c.Fresh s) (jobId : String) :
    s ≠ VmPool.buildingId jobId := by
  rintro rfl
  exact h.2 (VmPool.prefix_buildingId jobId)

namespace VmWorld

variable (w : VmWorld)

/-- The statement a call runs, and the clients after it. -/
def act : VmAct → Option (VmStmt × VmCtl)
  | .tick d => some (.tick d, w.ctl)
  | .start job => some (.read, { w.ctl with clients := w.ctl.clients ++ [⟨job, []⟩] })
  | .claim i runner fp lease locked => w.ctl.clients[i]?.map fun x =>
      (.claim runner fp x.job lease locked, w.ctl.give i x (w.db.pick runner fp locked).toList)
  | .beginBuild i runner fp wf lease => w.ctl.clients[i]?.map fun x =>
      (.beginBuild x.job runner fp wf lease, w.ctl)
  | .clearBuild i => w.ctl.clients[i]?.map fun x => (.forget (VmPool.buildingId x.job), w.ctl)
  | .register i sandboxId runner fp wf lease => w.ctl.clients[i]?.bind fun x =>
      if w.ctl.Fresh sandboxId
      then some (.register sandboxId runner fp wf x.job lease,
        { w.ctl.give i x [sandboxId] with assigned := sandboxId :: w.ctl.assigned })
      else none
  | .release i sandboxId => w.ctl.clients[i]?.bind fun x =>
      if sandboxId ∈ x.obtained then some (.release sandboxId, w.ctl) else none
  | .forget i sandboxId => w.ctl.clients[i]?.bind fun x =>
      if sandboxId ∈ x.obtained then some (.forget sandboxId, w.ctl) else none
  | .renewLeases lease => some (.renewLeases lease, w.ctl)
  | .releaseOrphans store runners instanceId =>
    some (.releaseOrphans store runners instanceId, w.ctl)
  | .sweepStaleBuilds runners instanceId => some (.sweepStaleBuilds runners instanceId, w.ctl)
  | .take s => some (.take s,
      { w.ctl with sweeps := w.ctl.sweeps ++ VmStmt.taken w.db (.take s) })
  | .swept k => w.ctl.sweeps[k]?.map fun s =>
      (.forget s, { w.ctl with sweeps := Actors.put w.ctl.sweeps k none })
  | .notSwept k => w.ctl.sweeps[k]?.map fun _ =>
      (.read, { w.ctl with sweeps := Actors.put w.ctl.sweeps k none })

/-- One call. -/
def step (a : VmAct) : Option VmWorld := (w.act a).map fun sc => ⟨w.db.exec sc.1, sc.2⟩

/-- An empty pool and nobody there. -/
def start (now : Nat) : VmWorld := ⟨⟨now, .empty⟩, ⟨[], [], []⟩⟩

end VmWorld

/-- The pool and its clients. -/
def vmMachine : Machine VmWorld VmAct where
  init w := ∃ now, w = VmWorld.start now
  step := VmWorld.step

/-! ## Every way the machine can move -/

/-- What a call can be: the statement it runs and the clients after it. -/
inductive VmWorld.Moves (w : VmWorld) : VmAct → VmStmt → VmCtl → Prop
  | start (job : String) :
      Moves w (.start job) .read { w.ctl with clients := w.ctl.clients ++ [⟨job, []⟩] }
  | claim (i : Nat) (x : VmClient) (hi : w.ctl.clients[i]? = some x) (runner fp : String)
      (lease : Lease) (locked : List String) :
      Moves w (.claim i runner fp lease locked) (.claim runner fp x.job lease locked)
        (w.ctl.give i x (w.db.pick runner fp locked).toList)
  | beginBuild (i : Nat) (x : VmClient) (hi : w.ctl.clients[i]? = some x) (runner fp wf : String)
      (lease : Lease) :
      Moves w (.beginBuild i runner fp wf lease) (.beginBuild x.job runner fp wf lease) w.ctl
  | clearBuild (i : Nat) (x : VmClient) (hi : w.ctl.clients[i]? = some x) :
      Moves w (.clearBuild i) (.forget (VmPool.buildingId x.job)) w.ctl
  | register (i : Nat) (x : VmClient) (hi : w.ctl.clients[i]? = some x)
      (sandboxId runner fp wf : String) (lease : Lease) (hf : w.ctl.Fresh sandboxId) :
      Moves w (.register i sandboxId runner fp wf lease)
        (.register sandboxId runner fp wf x.job lease)
        { w.ctl.give i x [sandboxId] with assigned := sandboxId :: w.ctl.assigned }
  | release (i : Nat) (x : VmClient) (hi : w.ctl.clients[i]? = some x) (sandboxId : String)
      (ho : sandboxId ∈ x.obtained) : Moves w (.release i sandboxId) (.release sandboxId) w.ctl
  | forget (i : Nat) (x : VmClient) (hi : w.ctl.clients[i]? = some x) (sandboxId : String)
      (ho : sandboxId ∈ x.obtained) : Moves w (.forget i sandboxId) (.forget sandboxId) w.ctl
  | tick (d : Nat) : Moves w (.tick d) (.tick d) w.ctl
  | renewLeases (lease : Lease) : Moves w (.renewLeases lease) (.renewLeases lease) w.ctl
  | releaseOrphans (store : Db) (runners : List String) (instanceId : String) :
      Moves w (.releaseOrphans store runners instanceId)
        (.releaseOrphans store runners instanceId) w.ctl
  | sweepStaleBuilds (runners : List String) (instanceId : String) :
      Moves w (.sweepStaleBuilds runners instanceId) (.sweepStaleBuilds runners instanceId) w.ctl
  | take (s : Sweep) : Moves w (.take s) (.take s)
      { w.ctl with sweeps := w.ctl.sweeps ++ VmStmt.taken w.db (.take s) }
  | swept (k : Nat) (s : String) (hk : w.ctl.sweeps[k]? = some s) : Moves w (.swept k) (.forget s)
      { w.ctl with sweeps := Actors.put w.ctl.sweeps k none }
  | notSwept (k : Nat) (s : String) (hk : w.ctl.sweeps[k]? = some s) : Moves w (.notSwept k) .read
      { w.ctl with sweeps := Actors.put w.ctl.sweeps k none }

/-- **Every way the machine can move.** -/
theorem VmWorld.act_cases {w : VmWorld} {a : VmAct} {st : VmStmt} {c : VmCtl}
    (h : w.act a = some (st, c)) : w.Moves a st c := by
  cases a with
  | tick d =>
    cases h
    exact .tick d
  | start job =>
    cases h
    exact .start job
  | claim i runner fp lease locked =>
    obtain ⟨x, hi, h⟩ := Option.map_eq_some_iff.mp h
    cases h
    exact .claim i x hi runner fp lease locked
  | beginBuild i runner fp wf lease =>
    obtain ⟨x, hi, h⟩ := Option.map_eq_some_iff.mp h
    cases h
    exact .beginBuild i x hi runner fp wf lease
  | clearBuild i =>
    obtain ⟨x, hi, h⟩ := Option.map_eq_some_iff.mp h
    cases h
    exact .clearBuild i x hi
  | register i s runner fp wf lease =>
    obtain ⟨x, hi, h⟩ := Option.bind_eq_some_iff.mp h
    split_ifs at h with hf
    cases h
    exact .register i x hi s runner fp wf lease hf
  | release i s =>
    obtain ⟨x, hi, h⟩ := Option.bind_eq_some_iff.mp h
    split_ifs at h with ho
    cases h
    exact .release i x hi s ho
  | forget i s =>
    obtain ⟨x, hi, h⟩ := Option.bind_eq_some_iff.mp h
    split_ifs at h with ho
    cases h
    exact .forget i x hi s ho
  | renewLeases lease =>
    cases h
    exact .renewLeases lease
  | releaseOrphans store runners instanceId =>
    cases h
    exact .releaseOrphans store runners instanceId
  | sweepStaleBuilds runners instanceId =>
    cases h
    exact .sweepStaleBuilds runners instanceId
  | take s =>
    cases h
    exact .take s
  | swept k =>
    obtain ⟨s, hk, h⟩ := Option.map_eq_some_iff.mp h
    cases h
    exact .swept k s hk
  | notSwept k =>
    obtain ⟨s, hk, h⟩ := Option.map_eq_some_iff.mp h
    cases h
    exact .notSwept k s hk

theorem vmStep_cases {w w' : VmWorld} {a : VmAct} (h : w.step a = some w') :
    ∃ st c, w.Moves a st c ∧ w' = ⟨w.db.exec st, c⟩ := by
  obtain ⟨⟨st, c⟩, hact, rfl⟩ := Option.map_eq_some_iff.mp h
  exact ⟨st, c, VmWorld.act_cases hact, rfl⟩

namespace VmWorld

variable {w : VmWorld} {a : VmAct} {st : VmStmt} {c : VmCtl} {i : Nat}

/-- A client keeps its job and what it was given. -/
theorem Moves.client (hm : w.Moves a st c) {y : VmClient} (hy : w.ctl.clients[i]? = some y) :
    ∃ y', c.clients[i]? = some y' ∧ y'.job = y.job ∧ ∀ s ∈ y.obtained, s ∈ y'.obtained := by
  have hgive : ∀ (j : Nat) (x : VmClient) (ids : List String), w.ctl.clients[j]? = some x →
      ∃ y', (w.ctl.give j x ids).clients[i]? = some y' ∧ y'.job = y.job ∧
        ∀ s ∈ y.obtained, s ∈ y'.obtained := by
    intro j x ids hj
    rw [VmCtl.getElem?_give hj]
    split_ifs with hij
    · subst hij
      obtain rfl : x = y := Option.some.inj (hj.symm.trans hy)
      exact ⟨_, rfl, rfl, fun s hs => List.mem_append_left _ hs⟩
    · exact ⟨y, hy, rfl, fun s hs => hs⟩
  cases hm with
  | start job =>
    obtain ⟨hlt, -⟩ := List.getElem?_eq_some_iff.mp hy
    exact ⟨y, by rw [List.getElem?_append_left hlt, hy], rfl, fun s hs => hs⟩
  | claim j x hj => exact hgive j x _ hj
  | register j x hj => exact hgive j x _ hj
  | _ => exact ⟨y, hy, rfl, fun s hs => hs⟩

/-- `claim` gives the VM it picks. -/
theorem Moves.claimed_given {runner fp s : String} {lease : Lease} {locked : List String}
    (hm : w.Moves (.claim i runner fp lease locked) st c) (hp : w.db.pick runner fp locked = some s) :
    ∃ y, c.clients[i]? = some y ∧ s ∈ y.obtained := by
  cases hm with
  | claim i x hi =>
    rw [VmCtl.getElem?_give hi, if_pos rfl, hp]
    exact ⟨_, rfl, List.mem_append_right _ List.mem_cons_self⟩

/-- `register` gives the VM it records. -/
theorem Moves.registered_given {s runner fp wf : String} {lease : Lease}
    (hm : w.Moves (.register i s runner fp wf lease) st c) :
    ∃ y, c.clients[i]? = some y ∧ s ∈ y.obtained := by
  cases hm with
  | register i x hi =>
    refine ⟨{ x with obtained := x.obtained ++ [s] }, ?_, List.mem_append_right _ List.mem_cons_self⟩
    exact (VmCtl.getElem?_give hi).trans (if_pos rfl)

end VmWorld

/-! ## Which ids there are -/

/-- The ids in the table, and those that are passed around: a placeholder belongs to a `building`
row, every other row and every sandbox in anybody's hands has an id a daemon gave out. -/
structure VmWorld.Ids (w : VmWorld) : Prop where
  rows : ∀ r ∈ w.db.vms.rows, if r.status = .building then ∃ j, r.sandboxId = VmPool.buildingId j
    else r.sandboxId ∈ w.ctl.assigned
  assigned : ∀ s ∈ w.ctl.assigned, ∀ j, s ≠ VmPool.buildingId j
  obtained : ∀ x ∈ w.ctl.clients, ∀ s ∈ x.obtained, s ∈ w.ctl.assigned
  sweeps : ∀ s ∈ w.ctl.sweeps, s ∈ w.ctl.assigned

namespace VmWorld.Ids

variable {w : VmWorld}

/-- A row that is not `building` has an assigned id. -/
theorem mem_assigned (h : w.Ids) {r : PooledVm} (hr : r ∈ w.db.vms.rows)
    (hs : r.status ≠ .building) : r.sandboxId ∈ w.ctl.assigned := by
  have := h.rows r hr
  rwa [if_neg hs] at this

/-- A fresh id has no row. -/
theorem ne_of_fresh (h : w.Ids) {s : String} (hf : w.ctl.Fresh s) {r : PooledVm}
    (hr : r ∈ w.db.vms.rows) : r.sandboxId ≠ s := by
  rintro rfl
  have hrow := h.rows r hr
  split_ifs at hrow
  · obtain ⟨j, hj⟩ := hrow
    exact hf.ne_buildingId j hj
  · exact hf.1 hrow

theorem start (now : Nat) : (VmWorld.start now).Ids where
  rows := nofun
  assigned := nofun
  obtained := nofun
  sweeps := nofun

variable {a : VmAct} {st : VmStmt} {c : VmCtl}

theorem assigned_mono (hm : w.Moves a st c) {s : String} (hs : s ∈ w.ctl.assigned) :
    s ∈ c.assigned := by
  cases hm with
  | register => exact List.mem_cons_of_mem _ hs
  | _ => exact hs

/-- The rows after a statement keep to their ids. -/
theorem rows_step (h : w.Ids) (hm : w.Moves a st c) : ∀ r ∈ (w.db.exec st).vms.rows,
    if r.status = .building then ∃ j, r.sandboxId = VmPool.buildingId j
    else r.sandboxId ∈ c.assigned := by
  intro r' hr'
  rcases PoolDb.cases_exec hr' with ⟨r, hr, -, hmv⟩ | ⟨-, hnew⟩
  · have hkeep : r.status ≠ .building → r.sandboxId ∈ c.assigned := fun hs =>
      assigned_mono hm (h.mem_assigned hr hs)
    have hsame : if r.status = .building then ∃ j, r.sandboxId = VmPool.buildingId j
        else r.sandboxId ∈ c.assigned := by
      have hrow := h.rows r hr
      split_ifs at hrow ⊢
      · exact hrow
      · exact assigned_mono hm hrow
    cases hmv with
    | keep | renew => exact hsame
    | claim runner fp jobId lease locked hp hs => exact hkeep (by rw [hs]; nofun)
    | build jobId runner fp wf lease hid => exact ⟨jobId, hid⟩
    | register =>
      cases hm
      exact List.mem_cons_self
    | release =>
      cases hm with
      | release i x hi s ho => exact h.obtained x (List.mem_of_getElem? hi) _ ho
    | orphan store runners instanceId hs ho => exact hkeep (by rw [hs]; nofun)
    | drain s ht hc hb => exact hkeep hb
  · cases st with
    | beginBuild jobId =>
      cases hnew
      exact ⟨jobId, rfl⟩
    | register =>
      cases hnew
      cases hm
      exact List.mem_cons_self
    | _ => cases hnew

/-- What a client holds after a step it held before, picked, or registered. -/
theorem obtained_step (h : w.Ids) (hm : w.Moves a st c) :
    ∀ x ∈ c.clients, ∀ s ∈ x.obtained, s ∈ c.assigned := by
  have hput : ∀ (i : Nat) (x : VmClient) (ids : List String), w.ctl.clients[i]? = some x →
      (∀ s ∈ ids, s ∈ c.assigned) → ∀ y ∈ (w.ctl.give i x ids).clients, ∀ s ∈ y.obtained,
        s ∈ c.assigned := by
    intro i x ids hi hids y hy s hs
    rcases VmCtl.mem_give hy with hy | rfl
    · exact assigned_mono hm (h.obtained y hy s hs)
    · rcases List.mem_append.mp hs with hs | hs
      · exact assigned_mono hm (h.obtained x (List.mem_of_getElem? hi) s hs)
      · exact hids s hs
  cases hm with
  | start job =>
    intro x hx s hs
    rcases List.mem_append.mp hx with hx | hx
    · exact h.obtained x hx s hs
    · obtain rfl := List.mem_singleton.mp hx
      cases hs
  | claim i x hi runner fp lease locked =>
    refine hput i x _ hi fun s hs => ?_
    obtain ⟨r, hr, rfl, hidle⟩ := PoolDb.idle_of_pick (Option.mem_toList.mp hs)
    exact h.mem_assigned hr (by rw [hidle]; nofun)
  | register i x hi s runner fp wf lease hf =>
    refine hput i x _ hi fun s' hs' => ?_
    obtain rfl := List.mem_singleton.mp hs'
    exact List.mem_cons_self
  | _ => exact h.obtained

theorem step (h : w.Ids) (hm : w.Moves a st c) : (⟨w.db.exec st, c⟩ : VmWorld).Ids where
  rows := h.rows_step hm
  obtained := h.obtained_step hm
  assigned := by
    cases hm with
    | register i x hi s runner fp wf lease hf =>
      intro s' hs'
      rcases List.mem_cons.mp hs' with rfl | hs'
      · exact hf.ne_buildingId
      · exact h.assigned s' hs'
    | _ => exact h.assigned
  sweeps := by
    cases hm with
    | take sw =>
      intro s hs
      rcases List.mem_append.mp hs with hs | hs
      · exact h.sweeps s hs
      · obtain ⟨r, hr, rfl⟩ := List.mem_map.mp hs
        obtain ⟨hr, hsw⟩ := List.mem_filter.mp hr
        exact h.mem_assigned hr (VmPool.status_of_swept hsw).2
    | register => exact fun s hs => List.mem_cons_of_mem _ (h.sweeps s hs)
    | swept | notSwept => exact fun s hs => h.sweeps s (Actors.mem_put_none hs)
    | _ => exact h.sweeps

end VmWorld.Ids

/-- **The ids are kept apart in every reachable state.** -/
theorem VmWorld.ids_of_reachable {ok : VmWorld → VmAct → Prop} {w : VmWorld}
    (h : vmMachine.Reachable ok w) : w.Ids := by
  refine h.inv VmWorld.Ids ?_ fun w a w' _ hI _ hstep => ?_
  · rintro _ ⟨now, rfl⟩
    exact Ids.start now
  · obtain ⟨st, c, hm, rfl⟩ := vmStep_cases hstep
    exact hI.step hm

end HeyoCi
