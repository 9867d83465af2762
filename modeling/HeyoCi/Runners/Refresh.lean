import HeyoCi.Dispatch.Consume
import HeyoCi.Lib.Loop
import HeyoCi.Runners.Daemons
import HeyoCi.Submit.Trim
import Mathlib.Data.String.Basic

/-!
# Reading the pool

A refresh reads the networks of the account, the daemons and the members of each network, and makes a
snapshot of them.

* `ServedNetworks`: which networks an instance takes work for;
* `Account`: what a refresh is told; `listNetworks`, `project`, `pickDefault`, `load`: what it makes of it;
* `Account.Offers`, `Account.Asks`: the queues an answer is about; `wants_load`, `routeFor_load`;
* `Account.Backs`, **`backs_load`**: what a snapshot promises about the answer it was made of.
-/

namespace HeyoCi

/-- What the account says of a daemon. -/
def RunnerStatus.ofDaemon : DaemonStatus → RunnerStatus
  | .online => online
  | .stale => stale
  | .offline => offline

namespace Runners

/-! ## What is configured -/

inductive ServedNetworks where
  | all
  | named (names : List String)
  deriving Repr, DecidableEq

namespace ServedNetworks

/-- The parts of the text that are not empty, trimmed. -/
def parse (raw : String) : ServedNetworks :=
  if Text.trim raw = "*" then all
  else named (((raw.toList.splitOn ',').map fun part => Text.trim (String.ofList part)).filter
    fun s => !s.isEmpty)

def includes (id name : String) : ServedNetworks → Bool
  | all => true
  | named names => names.any fun n => n = id || Text.eqIgnoreAsciiCase n name

def preferred : ServedNetworks → Option String
  | all => none
  | named names => names.head?

end ServedNetworks

/-- What the pool is made with. -/
structure HeyvmConfig where
  networks : ServedNetworks
  defaultNode : Option String
  localRunner : Option String

/-! ## What a refresh is told -/

structure NetworkInfo where
  id : String
  name : String
  isDefault : Bool
  deriving Repr, DecidableEq

structure NetworkMember where
  sandboxKind : String
  sandboxRef : String
  deviceName : Option String
  deriving Repr, DecidableEq

/-- `MEMBER_KIND_HOST`. -/
def memberKindHost : String := "host"

/-- A network of the account, and what reading its members answers. -/
structure NetworkAnswer where
  info : NetworkInfo
  members : Except String (List NetworkMember)

/-- The members, and nobody where they could not be read. -/
def NetworkAnswer.readable (n : NetworkAnswer) : List NetworkMember :=
  match n.members with
  | .ok members => members
  | .error _ => []

/-- A machine is a host in the network. -/
def NetworkAnswer.HasHost (n : NetworkAnswer) (id : String) : Prop :=
  ∃ m ∈ n.readable, m.sandboxKind = memberKindHost ∧ m.sandboxRef = id

/-- What the control plane answers, and what this machine says of its own daemon. -/
structure Account where
  networks : Except String (List NetworkAnswer)
  daemons : Except String (List DaemonInfo)
  onDisk : Option String
  probe : Option DaemonName

inductive RunnerError where
  | controlPlane (text : String)
  | unknownNetwork (wanted : String) (available : List String)
  | ambiguousNetwork (wanted : String) (ids : List String)
  deriving Repr, DecidableEq

/-- How an error reads. -/
def RunnerError.text : RunnerError → String
  | controlPlane text => s!"heyvm control plane: {text}"
  | unknownNetwork wanted available =>
    if available.isEmpty then s!"CI_NETWORK={Text.debugStr wanted} matches no network, and this " ++
      "account has none. Create one with \x60heyvm network create\x60."
    else s!"CI_NETWORK={Text.debugStr wanted} matches no network. Available: " ++
      ", ".intercalate available
  | ambiguousNetwork wanted ids =>
    let joined := ", ".intercalate ids
    s!"CI_NETWORK={Text.debugStr wanted} matches {ids.length} networks ({joined}); set it to an id " ++
      "instead, because the two have different runner pools"

/-! ## What is made of it -/

/-- A network of the account, and whether the account calls it the default. -/
structure Listed extends RunnerSet where
  isDefault : Bool

/-- A snapshot of the pool, with what is only shown. -/
structure Discovered extends Pool where
  unjoined : List Runner
  lastError : Option String
  deriving DecidableEq

/-- `Pool::default()`. -/
def Discovered.empty : Discovered := ⟨⟨[], "", ""⟩, [], none⟩

/-- One entry of `CI_NETWORK`. -/
def checkEntry (infos : List NetworkInfo) (entry : String) : Except RunnerError Unit :=
  let name := Text.trim entry
  if infos.any (·.id = name) then .ok ()
  else match infos.filter fun n => Text.eqIgnoreAsciiCase n.name name with
    | [_] => .ok ()
    | [] => .error (.unknownNetwork name (infos.map (·.name)))
    | several => .error (.ambiguousNetwork name (several.map (·.id)))

/-- Every entry of `CI_NETWORK`. -/
def checkEntries (infos : List NetworkInfo) : ServedNetworks → Except RunnerError Unit
  | .all => .ok ()
  | .named names => Loop.forEach (checkEntry infos) names

/-- `list_networks`. -/
def listNetworks (served : ServedNetworks) (networks : Except String (List NetworkAnswer)) :
    Except RunnerError (List NetworkAnswer) :=
  match networks with
  | .error e => .error (.controlPlane s!"GET /networks: {e}")
  | .ok ns => (checkEntries (ns.map (·.info)) served).map fun _ => ns

/-- The members that are hosts. -/
def hosts (members : List NetworkMember) : List NetworkMember :=
  members.filter (·.sandboxKind = memberKindHost)

/-- The row of a daemon; a map by id keeps the last one. -/
def daemonOf (daemons : List DaemonInfo) (id : String) : Option DaemonInfo :=
  daemons.reverse.find? (·.id = id)

/-- A host as a runner. -/
def hostRunner (daemons : List DaemonInfo) (m : NetworkMember) : Runner where
  id := m.sandboxRef
  name := ((daemonOf daemons m.sandboxRef).bind (·.name) <|> m.deviceName).getD m.sandboxRef
  status := match daemonOf daemons m.sandboxRef with
    | some d => .ofDaemon d.status
    | none => .orphaned

/-- `project`. -/
def project (members : List NetworkMember) (daemons : List DaemonInfo) : List Runner × List String :=
  (Choice.sortOn (·.name) ((hosts members).map (hostRunner daemons)), (hosts members).map (·.sandboxRef))

/-- `pick_default`. -/
def pickDefault (networks : List Listed) (served : ServedNetworks) : String :=
  let preferred := served.preferred.bind fun wanted =>
    networks.find? fun n => n.served && n.isNamed wanted
  let account := networks.find? fun n => n.served && n.isDefault
  match preferred <|> account <|> networks.find? (·.served) with
  | some set => set.networkId
  | none => ""

/-- `local_pool`. -/
def localPool : Discovered where
  networks := [⟨"local", "local", true, [⟨"hd-local", "local", .online⟩]⟩]
  unjoined := []
  lastError := none
  defaultNetworkId := "local"
  defaultNodeId := "hd-local"

section Load

variable (statusText : DaemonStatus → String) (cfg : HeyvmConfig)

/-- A network of the account in the pool. -/
def listed (daemons : List DaemonInfo) (n : NetworkAnswer) : Listed where
  networkId := n.info.id
  networkName := n.info.name
  served := cfg.networks.includes n.info.id n.info.name
  runners := (project n.readable daemons).1
  isDefault := n.info.isDefault

/-- A daemon that is in no network. -/
def homeless (d : DaemonInfo) : Runner := ⟨d.id, d.name.getD d.id, .ofDaemon d.status⟩

/-- The pool of the answers. -/
def discovered (networks : List NetworkAnswer) (daemons : List DaemonInfo) (onDisk : Option String)
    (probe : Option DaemonName) : Discovered :=
  let listed := Choice.sortOn (·.networkName) (networks.map (listed cfg daemons))
  let joined := networks.flatMap fun n => (project n.readable daemons).2
  { networks := listed.map (·.toRunnerSet)
    unjoined := Choice.sortOn (·.name) ((daemons.filter fun d => !joined.contains d.id).map homeless)
    lastError := none
    defaultNetworkId := pickDefault listed cfg.networks
    defaultNodeId := resolveDefaultNode statusText cfg.defaultNode onDisk probe daemons }

/-- `Runners::load`. -/
def load (a : Account) : Except RunnerError Discovered :=
  if cfg.localRunner.isSome then .ok localPool
  else match listNetworks cfg.networks a.networks with
    | .error e => .error e
    | .ok networks => match a.daemons with
      | .error e => .error (.controlPlane s!"GET /me/daemons: {e}")
      | .ok daemons => .ok (discovered statusText cfg networks daemons a.onDisk a.probe)

end Load

/-- `{:?}`. -/
def debugStatus : DaemonStatus → String
  | .online => "Online"
  | .stale => "Stale"
  | .offline => "Offline"

/-! ## The queues of an answer -/

namespace Account

variable (a : Account) (cfg : HeyvmConfig)

/-- A network of the answer that is served. -/
def Serves (n : NetworkAnswer) : Prop :=
  ∃ ns, a.networks = .ok ns ∧ n ∈ ns ∧ cfg.networks.includes n.info.id n.info.name = true

/-- The queues an answer is about: those of the served networks, and of the hosts in them. -/
def Offers : Route → Prop
  | .network id => ∃ n, a.Serves cfg n ∧ n.info.id = id
  | .runner id => ∃ n, a.Serves cfg n ∧ n.HasHost id

/-- The queues it asks a task for: the host is online. -/
def Asks : Route → Prop
  | .network id => id ≠ "" ∧ a.Offers cfg (.network id)
  | .runner id => a.Offers cfg (.runner id) ∧
      ∃ ds d, a.daemons = .ok ds ∧ daemonOf ds id = some d ∧ d.status = .online

variable {a cfg}

theorem Asks.offers {route : Route} (h : a.Asks cfg route) : a.Offers cfg route := by
  cases route with
  | network id => exact h.2
  | runner id => exact h.1

end Account

section Load

variable {statusText : DaemonStatus → String} {cfg : HeyvmConfig} {a : Account} {s : Discovered}

theorem load_networks_error (hremote : cfg.localRunner = none) {e : String} (h : a.networks = .error e) :
    load statusText cfg a = .error (.controlPlane s!"GET /networks: {e}") := by
  rw [load, if_neg (by simp [hremote]), h]
  rfl

theorem load_networks_ok (hremote : cfg.localRunner = none) {ns : List NetworkAnswer}
    (h : a.networks = .ok ns) : load statusText cfg a =
      match checkEntries (ns.map (·.info)) cfg.networks with
      | .error e => .error e
      | .ok _ => match a.daemons with
        | .error e => .error (.controlPlane s!"GET /me/daemons: {e}")
        | .ok ds => .ok (discovered statusText cfg ns ds a.onDisk a.probe) := by
  rw [load, if_neg (by simp [hremote]), h]
  cases hcheck : checkEntries (ns.map (·.info)) cfg.networks <;> simp [listNetworks, Except.map, hcheck]

/-- **Where a load succeeds.** -/
theorem load_ok_iff (hremote : cfg.localRunner = none) : load statusText cfg a = .ok s ↔
    ∃ ns ds, a.networks = .ok ns ∧ checkEntries (ns.map (·.info)) cfg.networks = .ok () ∧
      a.daemons = .ok ds ∧ discovered statusText cfg ns ds a.onDisk a.probe = s := by
  cases hns : a.networks with
  | error e => simp [load_networks_error hremote hns]
  | ok ns =>
    rw [load_networks_ok hremote hns]
    cases hcheck : checkEntries (ns.map (·.info)) cfg.networks with
    | error e => simp [hcheck]
    | ok u => cases a.daemons <;> simp [hcheck]

theorem mem_served_discovered {ns : List NetworkAnswer} {ds : List DaemonInfo} {onDisk : Option String}
    {probe : Option DaemonName} {set : RunnerSet} :
    set ∈ (discovered statusText cfg ns ds onDisk probe).served ↔
      ∃ n ∈ ns, cfg.networks.includes n.info.id n.info.name = true ∧
        (listed cfg ds n).toRunnerSet = set := by
  simp only [Pool.served, discovered, List.mem_filter, List.mem_map, Choice.mem_sortOn]
  constructor
  · rintro ⟨⟨-, ⟨n, hn, rfl⟩, rfl⟩, hserved⟩
    exact ⟨n, hn, hserved, rfl⟩
  · rintro ⟨n, hn, hserved, rfl⟩
    exact ⟨⟨_, ⟨n, hn, rfl⟩, rfl⟩, hserved⟩

theorem mem_served_load (hremote : cfg.localRunner = none) (h : load statusText cfg a = .ok s)
    {set : RunnerSet} : set ∈ s.served ↔ ∃ n ds, a.Serves cfg n ∧ a.daemons = .ok ds ∧
      (listed cfg ds n).toRunnerSet = set := by
  obtain ⟨ns, ds, hns, -, hds, rfl⟩ := (load_ok_iff hremote).mp h
  rw [mem_served_discovered]
  constructor
  · rintro ⟨n, hn, hserved, heq⟩
    exact ⟨n, ds, ⟨ns, hns, hn, hserved⟩, hds, heq⟩
  · rintro ⟨n, ds', ⟨ns', hns', hn, hserved⟩, hds', heq⟩
    rw [hns] at hns'
    rw [hds] at hds'
    cases hns'
    cases hds'
    exact ⟨n, hn, hserved, heq⟩

theorem mem_project {members : List NetworkMember} {ds : List DaemonInfo} {r : Runner} :
    r ∈ (project members ds).1 ↔
      ∃ m ∈ members, m.sandboxKind = memberKindHost ∧ hostRunner ds m = r := by
  simp [project, Choice.mem_sortOn, hosts, and_assoc]

theorem hostRunner_online {ds : List DaemonInfo} {m : NetworkMember} :
    (hostRunner ds m).status = .online ↔ ∃ d, daemonOf ds m.sandboxRef = some d ∧ d.status = .online := by
  rw [hostRunner]
  cases daemonOf ds m.sandboxRef with
  | none => simp
  | some d =>
    have hstatus : RunnerStatus.ofDaemon d.status = .online ↔ d.status = .online := by
      cases d.status <;> simp [RunnerStatus.ofDaemon]
    simpa using hstatus

/-- **A snapshot asks for the queues of the answer it was made of.** -/
theorem wants_load (hremote : cfg.localRunner = none) (h : load statusText cfg a = .ok s)
    {route : Route} : s.Wants route ↔ a.Asks cfg route := by
  obtain ⟨ns, ds, -, -, hds, -⟩ := (load_ok_iff hremote).mp h
  have hone : ∀ {ds'}, a.daemons = .ok ds' → ds' = ds := fun h' => Except.ok.inj (h'.symm.trans hds)
  cases route with
  | network id =>
    simp only [Pool.Wants, Account.Asks, Account.Offers, mem_served_load hremote h]
    constructor
    · rintro ⟨hid, -, ⟨n, ds', hserved, -, rfl⟩, hn⟩
      exact ⟨hid, n, hserved, hn⟩
    · rintro ⟨hid, n, hserved, hn⟩
      exact ⟨hid, _, ⟨n, ds, hserved, hds, rfl⟩, hn⟩
  | runner id =>
    simp only [Pool.Wants, Account.Asks, Account.Offers, mem_served_load hremote h]
    constructor
    · rintro ⟨-, ⟨n, ds', hserved, hds', rfl⟩, r, hr, rfl, honline⟩
      obtain ⟨m, hm, hkind, rfl⟩ := mem_project.mp hr
      obtain ⟨d, hd, hlive⟩ := hostRunner_online.mp honline
      exact ⟨⟨n, hserved, m, hm, hkind, rfl⟩, ds', d, hds', hd, hlive⟩
    · rintro ⟨⟨n, hserved, m, hm, hkind, rfl⟩, ds', d, hds', hd, hlive⟩
      exact ⟨_, ⟨n, ds', hserved, hds', rfl⟩, hostRunner ds' m, mem_project.mpr ⟨m, hm, hkind, rfl⟩, rfl,
        hostRunner_online.mpr ⟨d, hd, hlive⟩⟩

theorem routeFor_served {pool : Pool} {plan : JobPlan} {route : Route}
    (h : routeFor pool plan = .ok route) : ∃ set ∈ pool.served, match route with
      | .network id => set.networkId = id
      | .runner id => ∃ r ∈ set.runners, r.id = id := by
  unfold routeFor at h
  cases hp : place pool plan with
  | error e =>
    rw [hp] at h
    cases h
  | ok p =>
    obtain ⟨hset, hnode⟩ := place_served hp
    rw [hp] at h
    simp only [Except.bind] at h
    refine ⟨p.network, hset, ?_⟩
    split at h
    · rename_i node hn
      cases h
      exact ⟨node, hnode node hn, rfl⟩
    · split_ifs at h
      cases h
      rfl

/-- **A job is sent to a served network of the answer, or to a member of one that is a host.** -/
theorem routeFor_load (hremote : cfg.localRunner = none) (h : load statusText cfg a = .ok s)
    {plan : JobPlan} {route : Route} (hroute : routeFor s.toPool plan = .ok route) :
    a.Offers cfg route := by
  obtain ⟨set, hset, hin⟩ := routeFor_served hroute
  obtain ⟨n, ds, hserved, -, rfl⟩ := (mem_served_load hremote h).mp hset
  cases route with
  | network id => exact ⟨n, hserved, hin⟩
  | runner id =>
    obtain ⟨r, hr, rfl⟩ := hin
    obtain ⟨m, hm, hkind, rfl⟩ := mem_project.mp hr
    exact ⟨n, hserved, m, hm, hkind, rfl⟩

end Load

/-! ## What a snapshot says -/

theorem trimmed_of_parse {raw : String} {names : List String} (h : ServedNetworks.parse raw = .named names) :
    ∀ entry ∈ names, Text.trim entry = entry := by
  intro entry hentry
  rw [ServedNetworks.parse] at h
  split_ifs at h
  cases h
  obtain ⟨part, -, rfl⟩ := List.mem_map.mp (List.mem_of_mem_filter hentry)
  exact Text.trim_trim _

theorem named_of_checkEntry {infos : List NetworkInfo} {entry : String}
    (h : checkEntry infos entry = .ok ()) :
    ∃ n ∈ infos, n.id = Text.trim entry ∨ Text.eqIgnoreAsciiCase n.name (Text.trim entry) = true := by
  simp only [checkEntry] at h
  split_ifs at h with hid
  · obtain ⟨n, hn, heq⟩ := List.any_eq_true.mp hid
    exact ⟨n, hn, Or.inl (of_decide_eq_true heq)⟩
  · split at h
    · rename_i n hfound
      have hmem := List.mem_filter.mp (hfound ▸ List.mem_singleton_self n)
      exact ⟨n, hmem.1, Or.inr hmem.2⟩
    · cases h
    · cases h

theorem eqIgnoreAsciiCase_comm (s t : String) :
    Text.eqIgnoreAsciiCase s t = Text.eqIgnoreAsciiCase t s := by
  rw [Text.eqIgnoreAsciiCase, Text.eqIgnoreAsciiCase, Bool.eq_iff_iff, decide_eq_true_eq,
    decide_eq_true_eq]
  exact eq_comm

/-- Whether an entry of `CI_NETWORK` is for a network. -/
def NetworkInfo.isNamed (n : NetworkInfo) (entry : String) : Bool :=
  n.id = entry || Text.eqIgnoreAsciiCase n.name entry

theorem includes_of_isNamed {names : List String} {entry : String} (hentry : entry ∈ names)
    {n : NetworkInfo} (h : n.isNamed entry = true) :
    (ServedNetworks.named names).includes n.id n.name = true := by
  rw [NetworkInfo.isNamed, eqIgnoreAsciiCase_comm, Bool.or_eq_true, decide_eq_true_eq] at h
  refine List.any_eq_true.mpr ⟨entry, hentry, ?_⟩
  rw [Bool.or_eq_true, decide_eq_true_eq]
  exact h.imp_left Eq.symm

theorem pickDefault_spec {networks : List Listed} {served : ServedNetworks} :
    (networks.find? (·.served) = none ∧ pickDefault networks served = "") ∨
      ∃ n ∈ networks, n.served = true ∧ n.networkId = pickDefault networks served ∧
        ∀ entry, served.preferred = some entry →
          (∃ m ∈ networks, m.served = true ∧ m.isNamed entry = true) → n.isNamed entry = true := by
  rw [pickDefault]
  cases hpreferred : served.preferred.bind fun wanted =>
      networks.find? fun n => n.served && n.isNamed wanted with
  | some n =>
    obtain ⟨entry, hentry, hfind⟩ := Option.bind_eq_some_iff.mp hpreferred
    have hspec := List.find?_some hfind
    rw [Bool.and_eq_true] at hspec
    refine Or.inr ⟨n, List.mem_of_find?_eq_some hfind, hspec.1, rfl, fun entry' hentry' _ => ?_⟩
    obtain rfl := Option.some.inj (hentry.symm.trans hentry')
    exact hspec.2
  | none =>
    have hnobody : ∀ entry, served.preferred = some entry →
        ¬ ∃ m ∈ networks, m.served = true ∧ m.isNamed entry = true := by
      rintro entry hentry ⟨m, hm, hserved, hnamed⟩
      rw [hentry, Option.bind_some] at hpreferred
      exact List.find?_eq_none.mp hpreferred m hm (Bool.and_eq_true_iff.mpr ⟨hserved, hnamed⟩)
    cases haccount : networks.find? fun n => n.served && n.isDefault with
    | some n =>
      have hspec := List.find?_some haccount
      rw [Bool.and_eq_true] at hspec
      exact Or.inr ⟨n, List.mem_of_find?_eq_some haccount, hspec.1, rfl,
        fun entry hentry h => absurd h (hnobody entry hentry)⟩
    | none =>
      cases hfirst : networks.find? (·.served) with
      | some n =>
        have hspec : n.served = true := List.find?_some (p := fun n : Listed => n.served) hfirst
        exact Or.inr ⟨n, List.mem_of_find?_eq_some hfirst, hspec, rfl,
          fun entry hentry h => absurd h (hnobody entry hentry)⟩
      | none => exact Or.inl ⟨rfl, rfl⟩

theorem mem_of_pickNamed {statusText : DaemonStatus → String} {byName : List DaemonInfo}
    {d : DaemonInfo} (h : pickNamed statusText byName = .ok d) : d ∈ byName := by
  rcases pickNamed_ok_iff.mp h with rfl | ⟨-, hlive⟩
  · exact List.mem_singleton_self d
  · exact List.mem_of_mem_filter (hlive ▸ List.mem_singleton_self d)

theorem pickedId_real {statusText : DaemonStatus → String} {ds : List DaemonInfo} {wanted : String} :
    pickedId statusText ds wanted = "" ∨ ∃ d ∈ ds, d.id = pickedId statusText ds wanted := by
  rw [pickedId]
  cases hpick : pickDaemon statusText ds wanted with
  | error e => exact Or.inl rfl
  | ok d =>
    refine Or.inr ⟨d, ?_, rfl⟩
    rw [pickDaemon] at hpick
    split at hpick
    · rename_i exact' hfind
      cases hpick
      exact List.mem_of_find?_eq_some hfind
    · exact List.mem_of_mem_filter (mem_of_pickNamed hpick)

/-- The own host is a daemon of the account, or nobody. -/
theorem resolveDefaultNode_real {statusText : DaemonStatus → String} {configured onDisk : Option String}
    {probe : Option DaemonName} {ds : List DaemonInfo} :
    resolveDefaultNode statusText configured onDisk probe ds = "" ∨
      ∃ d ∈ ds, d.id = resolveDefaultNode statusText configured onDisk probe ds := by
  have hknown : ∀ id, ds.any (·.id = id) = true → ∃ d ∈ ds, d.id = id := by
    intro id h
    obtain ⟨d, hd, heq⟩ := List.any_eq_true.mp h
    exact ⟨d, hd, of_decide_eq_true heq⟩
  cases configured with
  | some wanted => exact pickedId_real
  | none =>
    rw [resolveDefaultNode]
    cases hdisk : onDisk.filter fun id => ds.any (·.id = id) with
    | some id =>
      exact Or.inr (hknown id (Option.mem_filter_iff.mp hdisk).2)
    | none =>
      cases hbackend : (probe.bind (·.backendId)).filter fun id =>
          !(Text.trim id).isEmpty && ds.any (·.id = id) with
      | some id =>
        exact Or.inr (hknown id (Bool.and_eq_true_iff.mp (Option.mem_filter_iff.mp hbackend).2).2)
      | none =>
        cases hname : (probe.bind (·.name)).filter fun s => !(Text.trim s).isEmpty with
        | some name =>
          exact pickedId_real
        | none => exact Or.inl rfl

/-- **What a snapshot promises** about the answer it was made of. -/
structure Account.Backs (a : Account) (cfg : HeyvmConfig) (s : Discovered) : Prop where
  queues : ∀ route, s.Wants route ↔ a.Asks cfg route
  routes : ∀ plan route, routeFor s.toPool plan = .ok route → a.Offers cfg route
  entries : ∀ names, cfg.networks = .named names → ∀ entry ∈ names,
    ∃ n, a.Serves cfg n ∧ n.info.isNamed entry = true
  defaultNetwork : (∀ n, ¬ a.Serves cfg n) ∧ s.defaultNetworkId = "" ∨
    ∃ n, a.Serves cfg n ∧ n.info.id = s.defaultNetworkId ∧
      ∀ entry, cfg.networks.preferred = some entry → n.info.isNamed entry = true
  defaultNode : s.defaultNodeId = "" ∨ ∃ ds d, a.daemons = .ok ds ∧ d ∈ ds ∧ d.id = s.defaultNodeId

section Backs

variable {statusText : DaemonStatus → String} {cfg : HeyvmConfig} {a : Account} {s : Discovered}
  {raw : String}

theorem entries_load (hremote : cfg.localRunner = none) (hraw : cfg.networks = .parse raw)
    (h : load statusText cfg a = .ok s) {names : List String} (hnames : cfg.networks = .named names)
    {entry : String} (hentry : entry ∈ names) : ∃ n, a.Serves cfg n ∧ n.info.isNamed entry = true := by
  obtain ⟨ns, ds, hns, hcheck, -, -⟩ := (load_ok_iff hremote).mp h
  rw [hnames, checkEntries, Loop.forEach_ok_iff] at hcheck
  obtain ⟨info, hinfo, hnamed⟩ := named_of_checkEntry (hcheck entry hentry)
  obtain ⟨n, hn, rfl⟩ := List.mem_map.mp hinfo
  rw [trimmed_of_parse (hraw.symm.trans hnames) entry hentry] at hnamed
  have hisNamed : n.info.isNamed entry = true := by
    rw [NetworkInfo.isNamed, Bool.or_eq_true, decide_eq_true_eq]
    exact hnamed
  exact ⟨n, ⟨ns, hns, hn, by rw [hnames]; exact includes_of_isNamed hentry hisNamed⟩, hisNamed⟩

theorem defaultNetwork_load (hremote : cfg.localRunner = none) (hraw : cfg.networks = .parse raw)
    (h : load statusText cfg a = .ok s) : (∀ n, ¬ a.Serves cfg n) ∧ s.defaultNetworkId = "" ∨
    ∃ n, a.Serves cfg n ∧ n.info.id = s.defaultNetworkId ∧
      ∀ entry, cfg.networks.preferred = some entry → n.info.isNamed entry = true := by
  obtain ⟨ns, ds, hns, -, -, rfl⟩ := (load_ok_iff hremote).mp h
  have hlisted : ∀ l, l ∈ Choice.sortOn (fun n : Listed => n.networkName) (ns.map (listed cfg ds)) ↔
      ∃ n ∈ ns, listed cfg ds n = l := fun l => by rw [Choice.mem_sortOn, List.mem_map]
  rcases @pickDefault_spec (Choice.sortOn (fun n : Listed => n.networkName) (ns.map (listed cfg ds)))
    cfg.networks with ⟨hnone, hempty⟩ | ⟨l, hl, hserved, hid, hfirst⟩
  · refine Or.inl ⟨?_, hempty⟩
    rintro n ⟨ns', hns', hn, hincluded⟩
    rw [hns] at hns'
    cases hns'
    exact List.find?_eq_none.mp hnone _ ((hlisted _).mpr ⟨n, hn, rfl⟩) hincluded
  · obtain ⟨n, hn, rfl⟩ := (hlisted l).mp hl
    refine Or.inr ⟨n, ⟨ns, hns, hn, hserved⟩, hid, fun entry hentry => hfirst entry hentry ?_⟩
    obtain ⟨names, hnames⟩ : ∃ names, cfg.networks = .named names := by
      cases hn : cfg.networks with
      | all =>
        rw [hn] at hentry
        cases hentry
      | named names => exact ⟨names, rfl⟩
    rw [hnames] at hentry
    have hmem : entry ∈ names := List.mem_of_mem_head? hentry
    obtain ⟨m, ⟨ns', hns', hm, hincluded⟩, hnamed⟩ := entries_load hremote hraw h hnames hmem
    rw [hns] at hns'
    cases hns'
    exact ⟨_, (hlisted _).mpr ⟨m, hm, rfl⟩, hincluded, hnamed⟩

theorem backs_load (hremote : cfg.localRunner = none) (hraw : cfg.networks = .parse raw)
    (h : load statusText cfg a = .ok s) : a.Backs cfg s where
  queues _ := wants_load hremote h
  routes _ _ hroute := routeFor_load hremote h hroute
  entries _ hnames _ hentry := entries_load hremote hraw h hnames hentry
  defaultNetwork := defaultNetwork_load hremote hraw h
  defaultNode := by
    obtain ⟨ns, ds, -, -, hds, rfl⟩ := (load_ok_iff hremote).mp h
    exact resolveDefaultNode_real.imp_right fun ⟨d, hd, hid⟩ => ⟨ds, d, hds, hd, hid⟩

end Backs

end Runners

end HeyoCi
