import Mathlib.Data.List.Destutter
import HeyoCi.Dispatch.Place
import HeyoCi.Lib.Machine
import HeyoCi.Lib.Table

/-!
# Who consumes the queues

An instance keeps a task for the queue of each online host and of each network it serves. On every
tick it reads the pool and starts the tasks that are missing.

* `Pool.Wants`, `Pool.wanted`: the queues a snapshot asks for, and how they are computed;
* **`route_consumed`**: a job is routed to a queue of the served networks;
* `Consumers`, `consumersMachine`: the tasks of an instance and its map of handles;
* `Consumers.Tracked`: the map holds the handle of every task that is alive;
* **`consumers_follow_iff`**: when the tasks are those the snapshot asks for;
* `left_consumed`: a host that went offline keeps its task.
-/

namespace HeyoCi

/-- `{:?}`. -/
def Route.debug : Route → String
  | .runner id => "Runner(" ++ Text.debugStr id ++ ")"
  | .network id => "Network(" ++ Text.debugStr id ++ ")"

theorem Route.debug_injective : Function.Injective Route.debug := by
  intro r r' h
  have hl := congrArg String.toList h
  cases r with
  | runner id =>
    cases r' with
    | runner id' =>
      simp only [debug, String.toList_append, List.append_cancel_left_eq,
        List.append_cancel_right_eq, String.toList_inj] at hl
      rw [Text.debugStr_inj hl]
    | network id' => simp [debug] at hl
  | network id =>
    cases r' with
    | runner id' => simp [debug] at hl
    | network id' =>
      simp only [debug, String.toList_append, List.append_cancel_left_eq,
        List.append_cancel_right_eq, String.toList_inj] at hl
      rw [Text.debugStr_inj hl]

/-! ## The queues of a snapshot -/

theorem mem_destutter' {α : Type*} {R : α → α → Prop} [DecidableRel R] (hR : ∀ a b, ¬ R a b → a = b)
    {a b : α} {l : List α} : a ∈ l.destutter' R b ↔ a ∈ b :: l := by
  induction l generalizing b with
  | nil => exact Iff.rfl
  | cons c l ih =>
    by_cases hbc : R b c
    · simp only [List.destutter'_cons_pos _ hbc, List.mem_cons, ih]
    · obtain rfl := hR b c hbc
      rw [List.destutter'_cons_neg _ hbc, ih]
      simp

/-- Dropping what equals the element before it loses nothing. -/
theorem mem_destutter {α : Type*} {R : α → α → Prop} [DecidableRel R] (hR : ∀ a b, ¬ R a b → a = b)
    {a : α} {l : List α} : a ∈ l.destutter R ↔ a ∈ l := by
  cases l with
  | nil => exact Iff.rfl
  | cons b l => exact mem_destutter' hR

namespace Pool

variable (pool : Pool)

/-- A snapshot asks for a task for each online host of a served network, and for each such network
that has an id. -/
def Wants : Route → Prop
  | .runner id => ∃ set ∈ pool.served, ∃ r ∈ set.runners, r.id = id ∧ r.status = .online
  | .network id => id ≠ "" ∧ ∃ set ∈ pool.served, set.networkId = id

/-- The queues of one network. -/
def queues (set : RunnerSet) : List Route :=
  set.dispatchable.map (fun r => .runner r.id) ++
    if set.networkId.isEmpty then [] else [.network set.networkId]

/-- The queues `spawn_consumers` computes. -/
def wanted : List Route :=
  ((pool.served.flatMap queues).mergeSort fun r r' => r.debug ≤ r'.debug).destutter
    fun r r' => r.debug ≠ r'.debug

variable {pool}

theorem mem_queues {set : RunnerSet} {route : Route} : route ∈ queues set ↔ match route with
    | .runner id => ∃ r ∈ set.runners, r.id = id ∧ r.status = .online
    | .network id => id ≠ "" ∧ set.networkId = id := by
  have hempty : set.networkId.isEmpty = true ↔ set.networkId = "" := String.isEmpty_iff
  rw [queues, List.mem_append, List.mem_map]
  cases route with
  | runner id =>
    constructor
    · rintro (⟨r, hr, he⟩ | h)
      · obtain ⟨hmem, hs⟩ := List.mem_filter.mp hr
        exact ⟨r, hmem, Route.runner.inj he, of_decide_eq_true hs⟩
      · split_ifs at h <;> simp at h
    · rintro ⟨r, hmem, rfl, hs⟩
      exact Or.inl ⟨r, List.mem_filter.mpr ⟨hmem, decide_eq_true hs⟩, rfl⟩
  | network id =>
    constructor
    · rintro (⟨r, -, he⟩ | h)
      · cases he
      · split_ifs at h with hid
        · cases h
        · obtain ⟨rfl⟩ := List.mem_singleton.mp h
          exact ⟨fun he => hid (hempty.mpr he), rfl⟩
    · rintro ⟨hid, rfl⟩
      refine Or.inr ?_
      rw [if_neg (fun he => hid (hempty.mp he))]
      exact List.mem_singleton_self _

/-- **The computed queues are those the snapshot asks for.** -/
theorem mem_wanted {route : Route} : route ∈ pool.wanted ↔ pool.Wants route := by
  have hkey : ∀ r r' : Route, ¬ r.debug ≠ r'.debug → r = r' := fun r r' h =>
    Route.debug_injective (not_not.mp h)
  rw [wanted, mem_destutter hkey, List.mem_mergeSort, List.mem_flatMap]
  cases route with
  | runner id => simp only [mem_queues, Wants]
  | network id =>
    simp only [mem_queues, Wants]
    constructor
    · rintro ⟨set, hset, hid, he⟩
      exact ⟨hid, set, hset, he⟩
    · rintro ⟨hid, set, hset, he⟩
      exact ⟨set, hset, hid, he⟩

end Pool

/-! ## Where jobs are routed -/

theorem some_of_orElse {α : Type*} {o o' : Option α} {a : α} (h : (o <|> o') = some a) :
    o = some a ∨ o' = some a := by
  cases o with
  | none => exact Or.inr h
  | some b => exact Or.inl h

theorem Pool.served_of_defaultSet {pool : Pool} {set : RunnerSet} (h : pool.defaultSet = some set) :
    set ∈ pool.served := by
  unfold defaultSet at h
  rcases some_of_orElse h with h | h
  · have hs := List.find?_some h
    simp only [Bool.and_eq_true] at hs
    exact List.mem_filter.mpr ⟨List.mem_of_find?_eq_some h, hs.1⟩
  · exact List.mem_of_head? h

theorem networkOf_served {pool : Pool} {plan : JobPlan} {set : RunnerSet}
    (h : networkOf pool plan = .ok set) : set ∈ pool.served := by
  unfold networkOf at h
  split at h
  · split at h
    · rename_i hd
      cases h
      exact Pool.served_of_defaultSet hd
    · cases h
  · split at h
    · rename_i hf
      split_ifs at h with hs
      cases h
      exact List.mem_filter.mpr ⟨List.mem_of_find?_eq_some hf, hs⟩
    · cases h

theorem Pool.mem_of_locate {pool : Pool} {nodeId : String} {set : RunnerSet} {node : Runner}
    (h : pool.locate nodeId = some (set, node)) : set ∈ pool.served ∧ node ∈ set.runners := by
  have hmem : (set, node) ∈ pool.served.filterMap fun set =>
      (set.runners.find? (·.id = nodeId)).map fun r => (set, r) := by
    rcases some_of_orElse h with h | h
    · exact List.mem_of_find?_eq_some h
    · exact List.mem_of_head? h
  obtain ⟨set', hset, hr⟩ := List.mem_filterMap.mp hmem
  obtain ⟨r, hr, he⟩ := Option.map_eq_some_iff.mp hr
  cases he
  exact ⟨hset, List.mem_of_find?_eq_some hr⟩

/-- A placement is in a served network, on one of its hosts if it has a host. -/
theorem place_served {pool : Pool} {plan : JobPlan} {p : Placement} (h : place pool plan = .ok p) :
    p.network ∈ pool.served ∧ ∀ node, p.node = some node → node ∈ p.network.runners := by
  unfold place at h
  by_cases hlocal : plan.target.isLocal = true
  · rw [if_pos hlocal] at h
    split_ifs at h
    split at h
    · rename_i hl
      cases h
      obtain ⟨hset, hnode⟩ := Pool.mem_of_locate hl
      exact ⟨hset, fun node he => Option.some.inj he ▸ hnode⟩
    · cases h
  · rw [if_neg hlocal] at h
    cases hnet : networkOf pool plan with
    | error e =>
      rw [hnet] at h
      cases h
    | ok network =>
      rw [hnet] at h
      simp only [Except.bind] at h
      have hserved := networkOf_served hnet
      split at h
      · cases h
        exact ⟨hserved, nofun⟩
      · split at h
        · rename_i hf
          cases h
          exact ⟨hserved, fun node he => Option.some.inj he ▸ List.mem_of_find?_eq_some hf⟩
        · split_ifs at h
          cases h
          exact ⟨hserved, fun node he => by cases he⟩

/-- **Routing and consumption agree.** A job is routed to a network the snapshot asks a task for, or
to a host of a served network, which has one exactly when it is online in a served network. -/
theorem route_consumed (pool : Pool) (plan : JobPlan) (route : Route)
    (h : routeFor pool plan = .ok route) : match route with
    | .network id => .network id ∈ pool.wanted ∧ ∃ set ∈ pool.served, set.networkId = id
    | .runner id => (∃ set ∈ pool.served, ∃ r ∈ set.runners, r.id = id) ∧
        (.runner id ∈ pool.wanted ↔
          ∃ set ∈ pool.served, ∃ r ∈ set.runners, r.id = id ∧ r.status = .online) := by
  unfold routeFor at h
  cases hp : place pool plan with
  | error e =>
    rw [hp] at h
    cases h
  | ok p =>
    obtain ⟨hset, hnode⟩ := place_served hp
    rw [hp] at h
    simp only [Except.bind] at h
    split at h
    · rename_i node hn
      cases h
      exact ⟨⟨p.network, hset, node, hnode node hn, rfl⟩, Pool.mem_wanted⟩
    · split_ifs at h with hid
      cases h
      have hne : p.network.networkId ≠ "" := fun he => hid (String.isEmpty_iff.mpr he)
      exact ⟨Pool.mem_wanted.mpr ⟨hne, p.network, hset, rfl⟩, p.network, hset, rfl⟩

/-- A job for any host of a network with one host. -/
theorem route_consumed_single : routeFor Pool.single (.plain "build" []) = .ok (.network "n1") ∧
    Route.network "n1" ∈ Pool.single.wanted := by
  have h : routeFor Pool.single (.plain "build" []) = .ok (.network "n1") := by decide
  exact ⟨h, (route_consumed _ _ _ h).1⟩

/-! ## The tasks of an instance -/

/-- A task of `consume`. -/
structure Task where
  route : Route
  finished : Bool
  deriving Repr, DecidableEq

/-- An entry of the map of handles. -/
structure Handle where
  key : String
  /-- The place of its task among those started. -/
  task : Nat

/-- The tasks an instance has started, and its map of handles. -/
structure Consumers where
  tasks : List Task
  running : Table Handle.key

inductive ConsumersAct where
  /-- The ticker fires and this is the snapshot. -/
  | tick (pool : Pool)
  /-- A task ends. -/
  | finish (i : Nat)

namespace Consumers

variable (c : Consumers)

/-- The queues that are consumed. -/
def live : List Route := (c.tasks.filter fun t => !t.finished).map (·.route)

/-- Whether the map has the handle of a task that has not finished. -/
def alive (key : String) : Bool :=
  (c.running.find key).any fun h => c.tasks[h.task]?.any fun t => !t.finished

/-- `HashMap::insert`; the handle it replaces is dropped, which does not stop its task. -/
def insert (key : String) (task : Nat) : Table Handle.key :=
  c.running.upsert ⟨key, task⟩ ⟨fun h => h.key = key, fun h => { h with task := task }, fun _ => rfl⟩

/-- One turn of the loop over the queues. -/
def spawn (route : Route) : Consumers :=
  if c.alive route.debug then c
  else ⟨c.tasks ++ [⟨route, false⟩], c.insert route.debug c.tasks.length⟩

def tick (pool : Pool) : Consumers := pool.wanted.foldl spawn c

def step : ConsumersAct → Option Consumers
  | .tick pool => some (c.tick pool)
  | .finish i => c.tasks[i]?.map fun t => { c with tasks := c.tasks.set i { t with finished := true } }

def start : Consumers := ⟨[], .empty⟩

end Consumers

/-- The consumers of an instance. -/
def consumersMachine : Machine Consumers ConsumersAct where
  init c := c = .start
  step := Consumers.step

namespace Consumers

variable {c : Consumers}

theorem mem_live {route : Route} : route ∈ c.live ↔ ⟨route, false⟩ ∈ c.tasks := by
  simp only [live, List.mem_map, List.mem_filter, Bool.not_eq_true']
  constructor
  · rintro ⟨⟨r, f⟩, ⟨hmem, rfl⟩, rfl⟩
    exact hmem
  · exact fun h => ⟨_, ⟨h, rfl⟩, rfl⟩

/-- Every handle is of a task for its key, and every task that is alive has its handle in the map. -/
structure Tracked (c : Consumers) : Prop where
  handles : ∀ h ∈ c.running.rows, ∃ t, c.tasks[h.task]? = some t ∧ t.route.debug = h.key
  live : ∀ i route, c.tasks[i]? = some ⟨route, false⟩ → ⟨route.debug, i⟩ ∈ c.running.rows

theorem Tracked.start : Consumers.start.Tracked := ⟨nofun, nofun⟩

/-- The map tells which queues are consumed. -/
theorem Tracked.alive_iff (h : c.Tracked) {route : Route} :
    c.alive route.debug = true ↔ route ∈ c.live := by
  simp only [alive, Option.any_eq_true, mem_live]
  constructor
  · rintro ⟨hd, hf, t, ht, hfin⟩
    obtain ⟨t', ht', hk⟩ := h.handles hd (Table.mem_of_find hf)
    obtain rfl : t = t' := Option.some.inj (ht.symm.trans ht')
    have hr : t.route = route := Route.debug_injective (hk.trans (Table.key_of_find hf))
    obtain ⟨r, fin⟩ := t
    simp only [Bool.not_eq_true'] at hfin
    subst hr hfin
    exact List.mem_of_getElem? ht
  · intro hmem
    obtain ⟨i, hi⟩ := List.getElem?_of_mem hmem
    exact ⟨_, c.running.find_of_mem (h.live i route hi), _, hi, rfl⟩

theorem mem_insert {key : String} {task : Nat} {h : Handle} :
    h ∈ (c.insert key task).rows ↔ (h ∈ c.running.rows ∧ h.key ≠ key) ∨ h = ⟨key, task⟩ := by
  refine (Table.mem_upsert fun r hr => of_decide_eq_true hr).trans ?_
  constructor
  · rintro (⟨h₀, hmem, rfl⟩ | ⟨-, rfl⟩)
    · by_cases hk : h₀.key = key
      · rw [Table.Update.row_of_hits (decide_eq_true hk)]
        subst hk
        exact Or.inr rfl
      · rw [Table.Update.row_of_not_hits (decide_eq_false hk)]
        exact Or.inl ⟨hmem, hk⟩
    · exact Or.inr rfl
  · rintro (⟨hmem, hk⟩ | rfl)
    · exact Or.inl ⟨h, hmem, Table.Update.row_of_not_hits (decide_eq_false hk)⟩
    · rcases hf : c.running.find key with _ | h₀
      · exact Or.inr ⟨rfl, rfl⟩
      · obtain rfl := Table.key_of_find hf
        exact Or.inl ⟨h₀, Table.mem_of_find hf, Table.Update.row_of_hits (decide_eq_true rfl)⟩

theorem Tracked.spawn (h : c.Tracked) (route : Route) : (c.spawn route).Tracked := by
  unfold Consumers.spawn
  split_ifs with ha
  · exact h
  have hdead : route ∉ c.live := fun hl => ha (h.alive_iff.mpr hl)
  refine ⟨fun hd hmem => ?_, fun i r hi => ?_⟩
  · rcases mem_insert.mp hmem with ⟨hmem, -⟩ | rfl
    · obtain ⟨t, ht, hk⟩ := h.handles hd hmem
      obtain ⟨hlt, -⟩ := List.getElem?_eq_some_iff.mp ht
      exact ⟨t, by rw [List.getElem?_append_left hlt, ht], hk⟩
    · exact ⟨⟨route, false⟩, by simp, rfl⟩
  · refine mem_insert.mpr ?_
    rw [List.getElem?_append] at hi
    split_ifs at hi with hlt
    · have hne : r ≠ route := by
        rintro rfl
        exact hdead (mem_live.mpr (List.mem_of_getElem? hi))
      exact Or.inl ⟨h.live i r hi, fun he => hne (Route.debug_injective he)⟩
    · rw [List.getElem?_singleton] at hi
      split_ifs at hi with hi₀
      cases hi
      exact Or.inr (by rw [show i = c.tasks.length by omega])

theorem Tracked.mem_spawn (h : c.Tracked) {route r : Route} :
    r ∈ (c.spawn route).live ↔ r ∈ c.live ∨ r = route := by
  unfold Consumers.spawn
  split_ifs with ha
  · have hlive := h.alive_iff.mp ha
    exact ⟨Or.inl, fun hr => hr.elim id fun he => he ▸ hlive⟩
  · simp [mem_live]

/-- The tasks after some turns of the loop. -/
theorem Tracked.foldl (h : c.Tracked) (routes : List Route) :
    (routes.foldl Consumers.spawn c).Tracked ∧
      ∀ r, r ∈ (routes.foldl Consumers.spawn c).live ↔ r ∈ c.live ∨ r ∈ routes := by
  induction routes generalizing c with
  | nil => exact ⟨h, fun r => by simp⟩
  | cons route routes ih =>
    obtain ⟨htracked, hlive⟩ := ih (h.spawn route)
    refine ⟨htracked, fun r => ?_⟩
    rw [List.foldl_cons, hlive, h.mem_spawn, List.mem_cons, or_assoc]

/-- **After a tick** the queues consumed are those consumed before and those asked for. -/
theorem Tracked.mem_tick (h : c.Tracked) (pool : Pool) {r : Route} :
    r ∈ (c.tick pool).live ↔ r ∈ c.live ∨ pool.Wants r := by
  rw [tick, (h.foldl pool.wanted).2, Pool.mem_wanted]

theorem Tracked.finish (h : c.Tracked) {i : Nat} {t : Task} (hi : c.tasks[i]? = some t) :
    ({ c with tasks := c.tasks.set i { t with finished := true } } : Consumers).Tracked := by
  obtain ⟨hlt, -⟩ := List.getElem?_eq_some_iff.mp hi
  refine ⟨fun hd hmem => ?_, fun j r hj => ?_⟩
  · obtain ⟨t', ht', hk⟩ := h.handles hd hmem
    by_cases hij : i = hd.task
    · subst hij
      obtain rfl : t = t' := Option.some.inj (hi.symm.trans ht')
      exact ⟨_, List.getElem?_set_self hlt, hk⟩
    · exact ⟨t', (List.getElem?_set_ne hij).trans ht', hk⟩
  · simp only at hj
    rw [List.getElem?_set] at hj
    split_ifs at hj
    · cases hj
    · exact h.live j r hj

theorem Tracked.step (h : c.Tracked) {a : ConsumersAct} {c' : Consumers} (hs : c.step a = some c') :
    c'.Tracked := by
  cases a with
  | tick pool =>
    cases hs
    exact (h.foldl pool.wanted).1
  | finish i =>
    obtain ⟨t, hi, rfl⟩ := Option.map_eq_some_iff.mp hs
    exact h.finish hi

theorem tracked_of_reachable (h : consumersMachine.Reachable Machine.anyStep c) : c.Tracked := by
  refine h.inv Tracked ?_ fun c a c' _ ht _ hs => ht.step hs
  rintro _ rfl
  exact Tracked.start

/-- **No two tasks consume one queue.** -/
theorem nodup_live (h : consumersMachine.Reachable Machine.anyStep c) {i j : Nat} {route : Route}
    (hi : c.tasks[i]? = some ⟨route, false⟩) (hj : c.tasks[j]? = some ⟨route, false⟩) : i = j := by
  have ht := tracked_of_reachable h
  have he := c.running.eq_of_key (ht.live i route hi) (ht.live j route hj) rfl
  exact congrArg Handle.task he

/-- Right after a tick the queues consumed are those the snapshot asks for. -/
def Follows (_ : Consumers) (a : ConsumersAct) (c' : Consumers) : Prop :=
  ∀ pool, a = .tick pool → ∀ r, r ∈ c'.live ↔ pool.Wants r

/-- The snapshot of a tick still asks for every queue that is consumed. -/
def NoneLeft (c : Consumers) (a : ConsumersAct) : Prop :=
  ∀ pool, a = .tick pool → ∀ r ∈ c.live, pool.Wants r

theorem Tracked.follows_iff (h : c.Tracked) {a : ConsumersAct} {c' : Consumers}
    (hs : c.step a = some c') : c.Follows a c' ↔ c.NoneLeft a := by
  refine forall_congr' fun pool => forall_congr' fun ha => ?_
  subst ha
  cases hs
  constructor
  · exact fun hf r hr => (hf r).mp ((h.mem_tick pool).mpr (Or.inl hr))
  · exact fun hn r => (h.mem_tick pool).trans ⟨fun hr => hr.elim (hn r) id, Or.inr⟩

end Consumers

/-- **The consumers follow the pool in exactly the runs in which no host or network that has a task
goes offline or out of service.** -/
theorem consumers_follow_iff (as : List ConsumersAct) :
    consumersMachine.Throughout Consumers.Follows .start as ↔
      consumersMachine.Throughout (fun c a _ => c.NoneLeft a) .start as :=
  Machine.Throughout.congr (Machine.Reachable.init rfl) fun _ _ _ hr hs =>
    (Consumers.tracked_of_reachable hr).follows_iff hs

/-- The pool of one host, in a status. -/
def Pool.withStatus (status : RunnerStatus) : Pool :=
  { Pool.single with networks := [⟨"n1", "net", true, [⟨"hd-1", "host", status⟩]⟩] }

/-- A host goes offline and its queue is still consumed. -/
theorem left_consumed : ¬ ∀ as, consumersMachine.Throughout Consumers.Follows .start as := by
  intro h
  have hlaw := h [.tick (.withStatus .online), .tick (.withStatus .offline)]
  have hfirst := Consumers.Tracked.start.mem_tick (.withStatus .online) (r := .runner "hd-1")
  have hlive := hfirst.mpr (Or.inr ⟨_, List.mem_singleton_self _, _, List.mem_singleton_self _, rfl,
    rfl⟩)
  have htracked : (Consumers.start.tick (.withStatus .online)).Tracked :=
    Consumers.Tracked.start.step (a := .tick _) rfl
  have hkept := (htracked.mem_tick (.withStatus .offline)).mpr (Or.inl hlive)
  obtain ⟨set, hset, r, hr, -, hon⟩ :=
    ((hlaw _ rfl).2 _ rfl).1 _ rfl (.runner "hd-1") |>.mp hkept
  obtain rfl := List.mem_singleton.mp hset
  obtain rfl := List.mem_singleton.mp hr
  cases hon

end HeyoCi
