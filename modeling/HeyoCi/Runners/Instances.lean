import HeyoCi.Lib.Actors
import HeyoCi.Runners.Refresh

/-!
# Instances that read one account

An instance refreshes its pool on a ticker and when somebody joins a host to a network, and starts the
tasks of the queues that the pool asks for. Several refreshes may be on their way, and several instances
may read one account.

* `Refresher`, `Act`, `Instance.step`: one call to the snapshot at a time;
* `Answered`, `FromAnswer`: what an instance was told so far, and what comes from it;
* `Inv`, `inv_step`, `inv_run`: everything an instance holds comes from one answer;
* **`snapshots_backed`**: its snapshot, the jobs it routes and the queues it consumes;
* **`queues_apart`**: two instances of different networks share the queues of hosts that are in both.
-/

namespace HeyoCi

namespace Runners

/-! ## An instance -/

/-- How far a call to `refresh` is. -/
inductive Refresher where
  | reading
  | loaded (result : Except RunnerError Discovered)
  /-- It failed, and this is the snapshot that was there when it looked. -/
  | keeping (prev : Discovered) (error : RunnerError)

structure Instance where
  snapshot : Discovered
  refreshers : List Refresher
  consumers : Consumers

inductive Act where
  | refresh
  /-- The control plane has answered the refresher at a place. -/
  | answered (i : Nat) (a : Account)
  /-- One that failed reads the snapshot. -/
  | look (i : Nat)
  | store (i : Nat)
  /-- The ticker of the consumers fires. -/
  | tick
  /-- A task ends. -/
  | finish (i : Nat)
  | restart

namespace Instance

def start : Instance := ⟨.empty, [], .start⟩

variable (statusText : DaemonStatus → String) (cfg : HeyvmConfig) (s : Instance)

def step : Act → Option Instance
  | .refresh => some { s with refreshers := s.refreshers ++ [.reading] }
  | .answered i a => match s.refreshers[i]? with
    | some .reading =>
      some { s with refreshers := Actors.put s.refreshers i (some (.loaded (load statusText cfg a))) }
    | _ => none
  | .look i => match s.refreshers[i]? with
    | some (.loaded (.error e)) =>
      some { s with refreshers := Actors.put s.refreshers i (some (.keeping s.snapshot e)) }
    | _ => none
  | .store i => match s.refreshers[i]? with
    | some (.loaded (.ok pool)) =>
      some { s with snapshot := pool, refreshers := Actors.put s.refreshers i none }
    | some (.keeping prev e) =>
      some { s with
        snapshot := { prev with lastError := some e.text }
        refreshers := Actors.put s.refreshers i none }
    | _ => none
  | .tick => some { s with consumers := s.consumers.tick s.snapshot.toPool }
  | .finish i => (s.consumers.step (.finish i)).map fun c => { s with consumers := c }
  | .restart => some .start

end Instance

/-- The runs of an instance. -/
def instanceMachine (statusText : DaemonStatus → String) (cfg : HeyvmConfig) : Machine Instance Act where
  init s := s = .start
  step := Instance.step statusText cfg

/-! ## What comes from an answer -/

/-- One of the answers of a run. -/
def Answered (as : List Act) (a : Account) : Prop := ∃ i, .answered i a ∈ as

theorem Answered.mono {as : List Act} {a : Account} (h : Answered as a) (act : Act) :
    Answered (as ++ [act]) a := h.imp fun _ hi => List.mem_append_left _ hi

/-- A snapshot but for the last error. -/
def Discovered.calm (s : Discovered) : Discovered := { s with lastError := none }

section Inv

variable (statusText : DaemonStatus → String) (cfg : HeyvmConfig) (as : List Act)

/-- It is the snapshot of one answer, or the one of the beginning, but for the last error; that one is of
an answer too. -/
structure FromAnswer (s : Discovered) : Prop where
  pool : s.calm = .empty ∨ ∃ a, Answered as a ∧ load statusText cfg a = .ok s.calm
  lastError : ∀ text, s.lastError = some text → ∃ a e, Answered as a ∧ load statusText cfg a = .error e ∧
    e.text = text

/-- What a refresher holds comes from an answer. -/
def Refresher.Holds : Refresher → Prop
  | .reading => True
  | .loaded result => ∃ a, Answered as a ∧ load statusText cfg a = result
  | .keeping prev e => FromAnswer statusText cfg as prev ∧ ∃ a, Answered as a ∧
      load statusText cfg a = .error e

/-- **Whatever an instance holds comes from one answer.** -/
structure Inv (s : Instance) : Prop where
  snapshot : FromAnswer statusText cfg as s.snapshot
  refreshers : ∀ r ∈ s.refreshers, r.Holds statusText cfg as
  tracked : s.consumers.Tracked
  live : ∀ route ∈ s.consumers.live, ∃ a, Answered as a ∧ a.Asks cfg route

end Inv

section Runs

variable {statusText : DaemonStatus → String} {cfg : HeyvmConfig} {as : List Act} {s s' : Instance}

theorem FromAnswer.mono {p : Discovered} (h : FromAnswer statusText cfg as p) (act : Act) :
    FromAnswer statusText cfg (as ++ [act]) p where
  pool := h.pool.imp_right fun ⟨a, ha, hload⟩ => ⟨a, ha.mono act, hload⟩
  lastError text ht := by
    obtain ⟨a, e, ha, hload, he⟩ := h.lastError text ht
    exact ⟨a, e, ha.mono act, hload, he⟩

theorem Refresher.Holds.mono {r : Refresher} (h : r.Holds statusText cfg as) (act : Act) :
    r.Holds statusText cfg (as ++ [act]) := by
  cases r with
  | reading => trivial
  | loaded result =>
    obtain ⟨a, ha, hload⟩ := h
    exact ⟨a, ha.mono act, hload⟩
  | keeping prev e =>
    obtain ⟨hprev, a, ha, hload⟩ := h
    exact ⟨hprev.mono act, a, ha.mono act, hload⟩

theorem Inv.mono (h : Inv statusText cfg as s) (act : Act) : Inv statusText cfg (as ++ [act]) s where
  snapshot := h.snapshot.mono act
  refreshers r hr := (h.refreshers r hr).mono act
  tracked := h.tracked
  live route hroute := by
    obtain ⟨a, ha, hasks⟩ := h.live route hroute
    exact ⟨a, ha.mono act, hasks⟩

theorem fromAnswer_empty : FromAnswer statusText cfg as .empty := ⟨Or.inl rfl, nofun⟩

theorem inv_start : Inv statusText cfg as .start := ⟨fromAnswer_empty, nofun, Consumers.Tracked.start, nofun⟩

/-- A load that succeeds leaves no error. -/
theorem calm_of_load (hremote : cfg.localRunner = none) {a : Account} {p : Discovered}
    (h : load statusText cfg a = .ok p) : p.calm = p := by
  obtain ⟨ns, ds, -, -, -, rfl⟩ := (load_ok_iff hremote).mp h
  rfl

theorem fromAnswer_load (hremote : cfg.localRunner = none) {a : Account} {p : Discovered}
    (ha : Answered as a) (h : load statusText cfg a = .ok p) : FromAnswer statusText cfg as p := by
  have hcalm := calm_of_load hremote h
  refine ⟨Or.inr ⟨a, ha, h.trans (congrArg Except.ok hcalm.symm)⟩, fun text ht => ?_⟩
  rw [← hcalm] at ht
  cases ht

/-- The queues that a snapshot asks for are those of an answer. -/
theorem FromAnswer.asks (hremote : cfg.localRunner = none) {p : Discovered}
    (h : FromAnswer statusText cfg as p) {route : Route} (hw : p.Wants route) :
    ∃ a, Answered as a ∧ a.Asks cfg route := by
  have hcalm : p.calm.Wants route := hw
  rcases h.pool with hempty | ⟨a, ha, hload⟩
  · rw [hempty] at hcalm
    cases route with
    | runner id =>
      obtain ⟨set, hset, -⟩ := hcalm
      cases hset
    | network id =>
      obtain ⟨-, set, hset, -⟩ := hcalm
      cases hset
  · exact ⟨a, ha, (wants_load hremote hload).mp hcalm⟩

/-- Nobody holds anything new but the refresher that moved. -/
theorem Inv.put (h : Inv statusText cfg as s) (act : Act) {i : Nat} {o : Option Refresher}
    (ho : ∀ r, o = some r → r.Holds statusText cfg (as ++ [act])) :
    Inv statusText cfg (as ++ [act]) { s with refreshers := Actors.put s.refreshers i o } := by
  have hkept := h.mono act
  refine ⟨hkept.snapshot, fun r hr => ?_, hkept.tracked, hkept.live⟩
  rcases Actors.mem_put hr with hr | hr
  · exact hkept.refreshers r hr
  · exact ho r hr

/-- Another snapshot that comes from an answer. -/
theorem Inv.swap (h : Inv statusText cfg as s) {p : Discovered} (hp : FromAnswer statusText cfg as p) :
    Inv statusText cfg as { s with snapshot := p } := ⟨hp, h.refreshers, h.tracked, h.live⟩

theorem inv_step (hremote : cfg.localRunner = none) (h : Inv statusText cfg as s) {act : Act}
    (hs : s.step statusText cfg act = some s') : Inv statusText cfg (as ++ [act]) s' := by
  have hkept := h.mono act
  cases act with
  | refresh =>
    cases hs
    refine { hkept with refreshers := fun r hr => ?_ }
    rcases List.mem_append.mp hr with hr | hr
    · exact hkept.refreshers r hr
    · obtain rfl := List.mem_singleton.mp hr
      trivial
  | answered i a =>
    rw [Instance.step] at hs
    split at hs
    · cases hs
      refine h.put _ fun r hr => ?_
      cases hr
      exact ⟨a, ⟨i, List.mem_append_right _ (List.mem_singleton_self _)⟩, rfl⟩
    · cases hs
  | look i =>
    rw [Instance.step] at hs
    split at hs
    · rename_i e hi
      cases hs
      refine h.put _ fun r hr => ?_
      cases hr
      exact ⟨hkept.snapshot, hkept.refreshers _ (List.mem_of_getElem? hi)⟩
    · cases hs
  | store i =>
    have hleft : Inv statusText cfg (as ++ [.store i])
        { s with refreshers := Actors.put s.refreshers i none } := h.put _ fun r hr => by cases hr
    rw [Instance.step] at hs
    split at hs
    · rename_i pool hi
      cases hs
      obtain ⟨a, ha, hload⟩ := hkept.refreshers _ (List.mem_of_getElem? hi)
      exact hleft.swap (fromAnswer_load hremote ha hload)
    · rename_i prev e hi
      cases hs
      obtain ⟨hprev, a, ha, hload⟩ := hkept.refreshers _ (List.mem_of_getElem? hi)
      exact hleft.swap ⟨hprev.pool, fun text ht => ⟨a, e, ha, hload, Option.some.inj ht⟩⟩
    · cases hs
  | tick =>
    cases hs
    refine { hkept with tracked := h.tracked.step (a := .tick _) rfl, live := fun route hroute => ?_ }
    rcases (h.tracked.mem_tick _).mp hroute with hlive | hw
    · exact hkept.live route hlive
    · exact hkept.snapshot.asks hremote hw
  | finish i =>
    obtain ⟨c, hc, rfl⟩ := Option.map_eq_some_iff.mp hs
    obtain ⟨t, hi, rfl⟩ := Option.map_eq_some_iff.mp hc
    refine { hkept with tracked := h.tracked.finish hi, live := fun route hroute => ?_ }
    refine hkept.live route (Consumers.mem_live.mpr ?_)
    rcases List.mem_or_eq_of_mem_set (Consumers.mem_live.mp hroute) with hmem | heq
    · exact hmem
    · cases heq
  | restart =>
    cases hs
    exact inv_start

/-- **So it is in every run.** -/
theorem inv_run (hremote : cfg.localRunner = none)
    (h : (instanceMachine statusText cfg).run .start as = some s) : Inv statusText cfg as s := by
  induction as using List.reverseRecOn generalizing s with
  | nil =>
    cases h
    exact inv_start
  | append_singleton as act ih =>
    rw [Machine.run_concat] at h
    obtain ⟨t, ht, hstep⟩ := Option.bind_eq_some_iff.mp h
    exact inv_step hremote (ih ht) hstep

end Runs

/-- **A snapshot is of one answer, and so is every queue that is consumed.** However many refreshes
overlap and fail, the snapshot is not mixed of several answers: but for the last error it is what a load
makes of one, its jobs go to hosts and networks that are served, and its defaults are real. -/
theorem snapshots_backed (statusText : DaemonStatus → String) (cfg : HeyvmConfig) (raw : String)
    (hremote : cfg.localRunner = none) (hraw : cfg.networks = .parse raw) (as : List Act) (s : Instance)
    (hrun : (instanceMachine statusText cfg).run .start as = some s) :
    (s.snapshot.calm = .empty ∨ ∃ a, Answered as a ∧ load statusText cfg a = .ok s.snapshot.calm ∧
        a.Backs cfg s.snapshot) ∧
      (∀ text, s.snapshot.lastError = some text →
        ∃ a e, Answered as a ∧ load statusText cfg a = .error e ∧ e.text = text) ∧
      ∀ route ∈ s.consumers.live, ∃ a, Answered as a ∧ a.Asks cfg route := by
  have h := inv_run hremote hrun
  refine ⟨h.snapshot.pool.imp_right ?_, h.snapshot.lastError, h.live⟩
  rintro ⟨a, ha, hload⟩
  have hback := backs_load hremote hraw hload
  exact ⟨a, ha, hload, hback.queues, hback.routes, hback.entries, hback.defaultNetwork,
    hback.defaultNode⟩

/-- **Two instances of different networks** consume one queue only if it is that of a host that is in a
network of each. -/
theorem queues_apart (statusText : DaemonStatus → String) (cfg cfg' : HeyvmConfig)
    (hremote : cfg.localRunner = none) (hremote' : cfg'.localRunner = none) (as as' : List Act)
    (s s' : Instance) (hrun : (instanceMachine statusText cfg).run .start as = some s)
    (hrun' : (instanceMachine statusText cfg').run .start as' = some s')
    (hapart : ∀ a a' n n', Answered as a → Answered as' a' → a.Serves cfg n → a'.Serves cfg' n' →
      n.info.id ≠ n'.info.id) (route : Route) (h : route ∈ s.consumers.live)
    (h' : route ∈ s'.consumers.live) : ∃ id, route = .runner id ∧
      (∃ a n, Answered as a ∧ a.Serves cfg n ∧ n.HasHost id) ∧
      ∃ a n, Answered as' a ∧ a.Serves cfg' n ∧ n.HasHost id := by
  obtain ⟨a, ha, hasks⟩ := (inv_run hremote hrun).live route h
  obtain ⟨a', ha', hasks'⟩ := (inv_run hremote' hrun').live route h'
  cases route with
  | network id =>
    obtain ⟨n, hn, hid⟩ := hasks.2
    obtain ⟨n', hn', hid'⟩ := hasks'.2
    exact absurd (hid.trans hid'.symm) (hapart a a' n n' ha ha' hn hn')
  | runner id =>
    obtain ⟨n, hn, hhost⟩ := hasks.1
    obtain ⟨n', hn', hhost'⟩ := hasks'.1
    exact ⟨id, rfl, ⟨a, n, ha, hn, hhost⟩, a', n', ha', hn', hhost'⟩

/-! ## A host in two networks -/

/-- A control plane that does not answer. -/
def Account.down : Account := ⟨.error "timed out", .error "timed out", none, none⟩

def Account.downError : RunnerError := .controlPlane ("GET /networks: " ++ "timed out")

/-- An account with a host in both of its networks. -/
def Account.shared : Account where
  networks := .ok [⟨⟨"n1", "Prod", true⟩, .ok [⟨"host", "hd-1", none⟩, ⟨"deployed", "sb-9", none⟩]⟩,
    ⟨⟨"n2", "lab", false⟩, .ok [⟨"host", "hd-1", none⟩]⟩]
  daemons := .ok [⟨"hd-1", some "box", .online⟩]
  onDisk := none
  probe := none

/-- An instance for one network, named by hand. -/
def HeyvmConfig.serving (raw : String) : HeyvmConfig := ⟨.parse raw, some "box", none⟩

/-- Of two refreshes that overlap one fails, and then the tasks are started. -/
def overlapping : List Act := [.refresh, .refresh, .answered 0 .shared, .answered 1 .down, .store 0,
  .look 0, .store 0, .tick]

theorem load_shared (raw : String) (hraw : raw = "prod" ∨ raw = "lab") :
    ∃ p, load debugStatus (.serving raw) .shared = .ok p := by
  refine ⟨_, (load_ok_iff rfl).mpr ⟨_, _, rfl, ?_, rfl, rfl⟩⟩
  rcases hraw with rfl | rfl <;> decide

theorem run_overlapping (raw : String) (hraw : raw = "prod" ∨ raw = "lab") : ∃ s,
    (instanceMachine debugStatus (.serving raw)).run .start overlapping = some s ∧
      s.snapshot.lastError = some Account.downError.text ∧
      (.runner "hd-1") ∈ s.consumers.live := by
  obtain ⟨p, hload⟩ := load_shared raw hraw
  have hdown : load debugStatus (.serving raw) .down = .error Account.downError :=
    load_networks_error rfl rfl
  refine ⟨⟨{ p with lastError := some Account.downError.text }, [], Consumers.start.tick p.toPool⟩,
    ?_, rfl, ?_⟩
  · simp [overlapping, Machine.run, instanceMachine, Instance.step, Instance.start, Actors.put, hload,
      hdown]
  · refine (Consumers.Tracked.start.mem_tick p.toPool).mpr (Or.inr ((wants_load rfl hload).mpr ?_))
    refine ⟨?_, _, _, rfl, rfl, rfl⟩
    rcases hraw with rfl | rfl
    · exact ⟨_, ⟨_, rfl, List.mem_cons_self, by decide⟩, _, List.mem_cons_self, rfl, rfl⟩
    · exact ⟨_, ⟨_, rfl, List.mem_cons_of_mem _ List.mem_cons_self, by decide⟩, _, List.mem_cons_self, rfl,
        rfl⟩

/-- The one that failed has kept the pool of the other. -/
theorem snapshots_backed_shared : ∃ s,
    (instanceMachine debugStatus (.serving "prod")).run .start overlapping = some s ∧
      (s.snapshot.calm = .empty ∨ ∃ a, Answered overlapping a ∧
        load debugStatus (.serving "prod") a = .ok s.snapshot.calm ∧
        a.Backs (.serving "prod") s.snapshot) ∧
      ∀ route ∈ s.consumers.live, ∃ a, Answered overlapping a ∧ a.Asks (.serving "prod") route := by
  obtain ⟨s, hrun, -, -⟩ := run_overlapping "prod" (Or.inl rfl)
  have h := snapshots_backed debugStatus (.serving "prod") "prod" rfl rfl overlapping s hrun
  exact ⟨s, hrun, h.1, h.2.2⟩

theorem answered_overlapping {a : Account} (h : Answered overlapping a) : a = .shared ∨ a = .down := by
  obtain ⟨i, hi⟩ := h
  simp only [overlapping, List.mem_cons, Act.answered.injEq, reduceCtorEq, List.not_mem_nil, or_false,
    false_or] at hi
  exact hi.imp And.right And.right

/-- What an instance for one name serves of that account. -/
theorem serves_shared {raw : String} {a : Account} {n : NetworkAnswer} (ha : Answered overlapping a)
    (h : a.Serves (.serving raw) n) : n.info = ⟨"n1", "Prod", true⟩ ∨ n.info = ⟨"n2", "lab", false⟩ := by
  obtain ⟨ns, hns, hn, -⟩ := h
  rcases answered_overlapping ha with rfl | rfl
  · cases hns
    simp only [List.mem_cons, List.not_mem_nil, or_false] at hn
    rcases hn with rfl | rfl
    · exact Or.inl rfl
    · exact Or.inr rfl
  · cases hns

/-- The instances of the two networks both take the jobs of the host. -/
theorem queues_apart_shared : ∃ s s',
    (instanceMachine debugStatus (.serving "prod")).run .start overlapping = some s ∧
      (instanceMachine debugStatus (.serving "lab")).run .start overlapping = some s' ∧
      .runner "hd-1" ∈ s.consumers.live ∧ .runner "hd-1" ∈ s'.consumers.live ∧
      ∃ id, Route.runner "hd-1" = .runner id ∧
        (∃ a n, Answered overlapping a ∧ a.Serves (.serving "prod") n ∧ n.HasHost id) ∧
        ∃ a n, Answered overlapping a ∧ a.Serves (.serving "lab") n ∧ n.HasHost id := by
  obtain ⟨s, hrun, -, hlive⟩ := run_overlapping "prod" (Or.inl rfl)
  obtain ⟨s', hrun', -, hlive'⟩ := run_overlapping "lab" (Or.inr rfl)
  refine ⟨s, s', hrun, hrun', hlive, hlive', ?_⟩
  refine queues_apart debugStatus (.serving "prod") (.serving "lab") rfl rfl overlapping overlapping s s'
    hrun hrun' (fun a a' n n' ha ha' hn hn' => ?_) _ hlive hlive'
  have hprod : n.info ≠ ⟨"n2", "lab", false⟩ := by
    obtain ⟨ns, -, -, hincludes⟩ := hn
    intro hinfo
    rw [hinfo] at hincludes
    revert hincludes
    decide
  have hlab : n'.info ≠ ⟨"n1", "Prod", true⟩ := by
    obtain ⟨ns, -, -, hincludes⟩ := hn'
    intro hinfo
    rw [hinfo] at hincludes
    revert hincludes
    decide
  rw [(serves_shared ha hn).resolve_right hprod, (serves_shared ha' hn').resolve_left hlab]
  decide

end Runners

end HeyoCi
