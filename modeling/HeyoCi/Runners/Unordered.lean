import HeyoCi.Runners.Refresh
import Mathlib.Data.Multiset.Basic

/-!
# The order of the answers

The control plane lists the networks, their members and the daemons in no order that means anything.

* `Account.Relisted`: the same answers, in any order;
* `Discovered.Alike`, `Agree`: snapshots that ask for the same queues, and errors that say the same;
* `checkEntries_perm`, `Account.Relisted.asks`, `discovered_eq`: each part of a refresh;
* **`load_unordered`**: what is loaded does not depend on the order.
-/

namespace HeyoCi

namespace Runners

/-! ## In any order -/

/-- What the answer about a network says, whatever the order. -/
def NetworkAnswer.unordered (n : NetworkAnswer) : NetworkInfo × Except String (Multiset NetworkMember) :=
  (n.info, n.members.map Multiset.ofList)

/-- The same answers, in any order. -/
structure Account.Relisted (a' a : Account) : Prop where
  networks : (a'.networks.map fun ns => Multiset.ofList (ns.map NetworkAnswer.unordered)) =
    a.networks.map fun ns => Multiset.ofList (ns.map NetworkAnswer.unordered)
  daemons : a'.daemons.map Multiset.ofList = a.daemons.map Multiset.ofList
  onDisk : a'.onDisk = a.onDisk
  probe : a'.probe = a.probe

/-- The same error, with its lists in any order. -/
inductive RunnerError.Alike : RunnerError → RunnerError → Prop
  | controlPlane (text : String) : Alike (.controlPlane text) (.controlPlane text)
  | unknownNetwork (wanted : String) {names names' : List String} : names'.Perm names →
      Alike (.unknownNetwork wanted names') (.unknownNetwork wanted names)
  | ambiguousNetwork (wanted : String) {ids ids' : List String} : ids'.Perm ids →
      Alike (.ambiguousNetwork wanted ids') (.ambiguousNetwork wanted ids)

/-- No two networks of a snapshot have one name, and no two hosts of one of them. -/
structure Discovered.Distinct (s : Discovered) : Prop where
  networks : (s.networks.map (·.networkName)).Nodup
  runners : ∀ set ∈ s.networks, (set.runners.map (·.name)).Nodup
  unjoined : (s.unjoined.map (·.name)).Nodup

/-- Snapshots that ask for the same queues and mean the same host by `uses: default`. -/
structure Discovered.Alike (s' s : Discovered) : Prop where
  wants : ∀ route, s'.Wants route ↔ s.Wants route
  defaultNode : s'.defaultNodeId = s.defaultNodeId
  networks : (s'.networks.map fun n => (n.networkId, n.networkName, n.served)).Perm
    (s.networks.map fun n => (n.networkId, n.networkName, n.served))
  unjoined : s'.unjoined.Perm s.unjoined
  same : s.Distinct → s' = s

/-- What two attempts have in common: the same error, or results in a relation. -/
inductive Agree {α : Type} (R : α → α → Prop) : Except RunnerError α → Except RunnerError α → Prop
  | failed {e' e : RunnerError} : e'.Alike e → Agree R (.error e') (.error e)
  | ok {s' s : α} : R s' s → Agree R (.ok s') (.ok s)

theorem map_ok_eq {ε α β : Type*} {f : α → β} {x : Except ε α} {y : β} (h : x.map f = .ok y) :
    ∃ z, x = .ok z ∧ f z = y := by
  cases x with
  | error e => cases h
  | ok z => exact ⟨z, rfl, Except.ok.inj h⟩

section Unordered

variable {cfg : HeyvmConfig} {a a' : Account} {ns ns' : List NetworkAnswer} {ds ds' : List DaemonInfo}

theorem Account.Relisted.symm (h : a'.Relisted a) : a.Relisted a' :=
  ⟨h.networks.symm, h.daemons.symm, h.onDisk.symm, h.probe.symm⟩

theorem Account.Relisted.networks_ok (h : a'.Relisted a) (hns : a.networks = .ok ns) :
    ∃ ns', a'.networks = .ok ns' ∧
      (ns'.map NetworkAnswer.unordered).Perm (ns.map NetworkAnswer.unordered) := by
  have heq := h.networks
  rw [hns] at heq
  obtain ⟨ns', hns', hcoe⟩ := map_ok_eq heq
  exact ⟨ns', hns', Multiset.coe_eq_coe.mp hcoe⟩

theorem Account.Relisted.daemons_ok (h : a'.Relisted a) (hds : a.daemons = .ok ds) :
    ∃ ds', a'.daemons = .ok ds' ∧ ds'.Perm ds := by
  have heq := h.daemons
  rw [hds] at heq
  obtain ⟨ds', hds', hcoe⟩ := map_ok_eq heq
  exact ⟨ds', hds', Multiset.coe_eq_coe.mp hcoe⟩

/-- The members of one network, told in another order. -/
theorem readable_perm {n n' : NetworkAnswer} (h : n'.unordered = n.unordered) :
    n'.readable.Perm n.readable := by
  have hmembers := (Prod.ext_iff.mp h).2
  simp only [NetworkAnswer.unordered] at hmembers
  rw [NetworkAnswer.readable, NetworkAnswer.readable]
  cases hm : n.members with
  | error e =>
    rw [hm] at hmembers
    cases hm' : n'.members with
    | error e' => exact List.Perm.refl _
    | ok ms =>
      rw [hm'] at hmembers
      cases hmembers
  | ok ms =>
    rw [hm] at hmembers
    obtain ⟨ms', hms', hcoe⟩ := map_ok_eq hmembers
    rw [hms']
    exact Multiset.coe_eq_coe.mp hcoe

theorem info_eq {n n' : NetworkAnswer} (h : n'.unordered = n.unordered) : n'.info = n.info :=
  (Prod.ext_iff.mp h).1

theorem daemonOf_perm (hids : (ds.map (·.id)).Nodup) (h : ds'.Perm ds) (id : String) :
    daemonOf ds' id = daemonOf ds id := by
  have hone : Choice.AtMostOne (fun d : DaemonInfo => decide (d.id = id)) ds :=
    Choice.atMostOne_of_nodup_map hids fun d e hd he =>
      (of_decide_eq_true hd).trans (of_decide_eq_true he).symm
  rw [daemonOf, daemonOf, Choice.find?_perm hone ((List.reverse_perm ds').trans h),
    Choice.find?_perm hone (List.reverse_perm ds)]

theorem hostRunner_perm (hids : (ds.map (·.id)).Nodup) (h : ds'.Perm ds) :
    hostRunner ds' = hostRunner ds := by
  funext m
  rw [hostRunner, hostRunner, daemonOf_perm hids h]

theorem hosts_perm {n n' : NetworkAnswer} (h : n'.unordered = n.unordered) :
    (hosts n'.readable).Perm (hosts n.readable) := (readable_perm h).filter _

theorem project_eq (hids : (ds.map (·.id)).Nodup) (h : ds'.Perm ds) {n n' : NetworkAnswer}
    (hn : n'.unordered = n.unordered) (hnames : ((project n.readable ds).1.map (·.name)).Nodup) :
    (project n'.readable ds').1 = (project n.readable ds).1 := by
  rw [project] at hnames
  rw [project, project, hostRunner_perm hids h]
  exact Choice.sortOn_perm_eq ((Choice.sortOn_perm.map _).nodup_iff.mp hnames) ((hosts_perm hn).map _)

theorem checkEntry_perm {infos infos' : List NetworkInfo} (h : infos'.Perm infos) (entry : String) :
    Agree (fun _ _ => True) (checkEntry infos' entry) (checkEntry infos entry) := by
  have hfilter := h.filter fun n => Text.eqIgnoreAsciiCase n.name (Text.trim entry)
  simp only [checkEntry, h.any_eq]
  split_ifs with hid
  · exact .ok trivial
  generalize infos'.filter (fun n => Text.eqIgnoreAsciiCase n.name (Text.trim entry)) = found' at hfilter
  generalize infos.filter (fun n => Text.eqIgnoreAsciiCase n.name (Text.trim entry)) = found at hfilter
  rcases found with _ | ⟨x, _ | ⟨y, rest⟩⟩
  · rw [List.perm_nil.mp hfilter]
    exact .failed (.unknownNetwork _ (h.map _))
  · rw [List.perm_singleton.mp hfilter]
    exact .ok trivial
  · have hlength := hfilter.length_eq
    rcases found' with _ | ⟨x', _ | ⟨y', rest'⟩⟩
    · simp at hlength
    · simp at hlength
    · exact .failed (.ambiguousNetwork _ (hfilter.map _))

/-- The first entry that is wrong is so in any order. -/
theorem checkEntries_perm {infos infos' : List NetworkInfo} (h : infos'.Perm infos)
    (served : ServedNetworks) :
    Agree (fun _ _ => True) (checkEntries infos' served) (checkEntries infos served) := by
  cases served with
  | all => exact .ok trivial
  | named names =>
    rw [checkEntries, checkEntries]
    induction names with
    | nil => exact .ok trivial
    | cons entry names ih =>
      have hentry := checkEntry_perm h entry
      rw [Loop.forEach, Loop.forEach]
      generalize checkEntry infos' entry = r' at hentry
      generalize checkEntry infos entry = r at hentry
      cases hentry with
      | failed halike => exact .failed halike
      | ok => exact ih

/-- The networks of an answer are those of the other. -/
theorem exists_unordered (h : (ns'.map NetworkAnswer.unordered).Perm (ns.map NetworkAnswer.unordered))
    {n : NetworkAnswer} (hn : n ∈ ns) : ∃ n' ∈ ns', n'.unordered = n.unordered := by
  have hmem := h.mem_iff.mpr (List.mem_map_of_mem (f := NetworkAnswer.unordered) hn)
  obtain ⟨n', hn', heq⟩ := List.mem_map.mp hmem
  exact ⟨n', hn', heq⟩

theorem Account.Relisted.serves (h : a'.Relisted a) {n : NetworkAnswer} (hn : a.Serves cfg n) :
    ∃ n', a'.Serves cfg n' ∧ n'.unordered = n.unordered := by
  obtain ⟨ns, hns, hmem, hserved⟩ := hn
  obtain ⟨ns', hns', hperm⟩ := h.networks_ok hns
  obtain ⟨n', hmem', heq⟩ := exists_unordered hperm hmem
  exact ⟨n', ⟨ns', hns', hmem', by rwa [info_eq heq]⟩, heq⟩

theorem Account.Relisted.offers (h : a'.Relisted a) {route : Route} (ho : a.Offers cfg route) :
    a'.Offers cfg route := by
  cases route with
  | network id =>
    obtain ⟨n, hn, hid⟩ := ho
    obtain ⟨n', hn', heq⟩ := h.serves hn
    exact ⟨n', hn', by rwa [info_eq heq]⟩
  | runner id =>
    obtain ⟨n, hn, m, hm, hhost⟩ := ho
    obtain ⟨n', hn', heq⟩ := h.serves hn
    exact ⟨n', hn', m, (readable_perm heq).mem_iff.mpr hm, hhost⟩

theorem Account.Relisted.asks (h : a'.Relisted a) (hids : ∀ ds, a.daemons = .ok ds →
    (ds.map (·.id)).Nodup) {route : Route} (ha : a.Asks cfg route) : a'.Asks cfg route := by
  cases route with
  | network id => exact ⟨ha.1, h.offers ha.2⟩
  | runner id =>
    obtain ⟨ho, ds, d, hds, hd, hlive⟩ := ha
    obtain ⟨ds', hds', hperm⟩ := h.daemons_ok hds
    exact ⟨h.offers ho, ds', d, hds', by rwa [daemonOf_perm (hids ds hds) hperm], hlive⟩

end Unordered

section Discovered

variable {statusText : DaemonStatus → String} {cfg : HeyvmConfig} {ns ns' : List NetworkAnswer}
  {ds ds' : List DaemonInfo} {onDisk : Option String} {probe : Option DaemonName}

/-- The hosts of the account that are in a network. -/
theorem contains_joined (hns : (ns'.map NetworkAnswer.unordered).Perm (ns.map NetworkAnswer.unordered))
    (id : String) : (ns'.flatMap fun n => (project n.readable ds').2).contains id =
      (ns.flatMap fun n => (project n.readable ds).2).contains id := by
  have hto : ∀ {ns ns' : List NetworkAnswer} {ds ds' : List DaemonInfo},
      (ns'.map NetworkAnswer.unordered).Perm (ns.map NetworkAnswer.unordered) →
      id ∈ (ns.flatMap fun n => (project n.readable ds).2) →
      id ∈ ns'.flatMap fun n => (project n.readable ds').2 := by
    intro ns ns' ds ds' h hid
    obtain ⟨n, hn, hm⟩ := List.mem_flatMap.mp hid
    obtain ⟨n', hn', heq⟩ := exists_unordered h hn
    exact List.mem_flatMap.mpr ⟨n', hn', ((hosts_perm heq).map (·.sandboxRef)).mem_iff.mpr hm⟩
  rw [Bool.eq_iff_iff, List.contains_iff_mem, List.contains_iff_mem]
  exact ⟨hto hns.symm, hto hns⟩

theorem listed_eq (hids : (ds.map (·.id)).Nodup) (hds : ds'.Perm ds) {n n' : NetworkAnswer}
    (hn : n'.unordered = n.unordered)
    (hnames : ((listed cfg ds n).runners.map (·.name)).Nodup) : listed cfg ds' n' = listed cfg ds n := by
  rw [listed, listed, info_eq hn, project_eq hids hds hn hnames]

theorem homeless_perm (hns : (ns'.map NetworkAnswer.unordered).Perm (ns.map NetworkAnswer.unordered))
    (hds : ds'.Perm ds) :
    ((ds'.filter fun d => !(ns'.flatMap fun n => (project n.readable ds').2).contains d.id).map
      homeless).Perm ((ds.filter fun d => !(ns.flatMap fun n =>
        (project n.readable ds).2).contains d.id).map homeless) := by
  have hsame : (fun d : DaemonInfo => !(ns'.flatMap fun n => (project n.readable ds').2).contains d.id) =
      fun d => !(ns.flatMap fun n => (project n.readable ds).2).contains d.id := by
    funext d
    exact congrArg _ (contains_joined hns d.id)
  rw [hsame]
  exact (hds.filter _).map _

theorem shown_perm (hns : (ns'.map NetworkAnswer.unordered).Perm (ns.map NetworkAnswer.unordered)) :
    ((discovered statusText cfg ns' ds' onDisk probe).networks.map
      fun n => (n.networkId, n.networkName, n.served)).Perm
    ((discovered statusText cfg ns ds onDisk probe).networks.map
      fun n => (n.networkId, n.networkName, n.served)) := by
  have hshown : ∀ ns ds, ((discovered statusText cfg ns ds onDisk probe).networks.map
      fun n => (n.networkId, n.networkName, n.served)).Perm
      (ns.map fun n => (n.info.id, n.info.name, cfg.networks.includes n.info.id n.info.name)) := by
    intro ns ds
    simp only [discovered, List.map_map]
    exact (Choice.sortOn_perm.map _).trans (List.Perm.of_eq List.map_map)
  refine (hshown ns' ds').trans (List.Perm.trans ?_ (hshown ns ds).symm)
  exact Choice.perm_map_of_perm_map hns fun n' _ n _ heq => by rw [info_eq heq]

/-- **Where the names are distinct, the pool is the very same.** -/
theorem discovered_eq (hids : (ds.map (·.id)).Nodup)
    (hns : (ns'.map NetworkAnswer.unordered).Perm (ns.map NetworkAnswer.unordered)) (hds : ds'.Perm ds)
    (hdistinct : (discovered statusText cfg ns ds onDisk probe).Distinct) :
    discovered statusText cfg ns' ds' onDisk probe = discovered statusText cfg ns ds onDisk probe := by
  obtain ⟨hnetworks, hrunners, hunjoined⟩ := hdistinct
  have hlisted : (ns'.map (listed cfg ds')).Perm (ns.map (listed cfg ds)) := by
    refine Choice.perm_map_of_perm_map hns fun n' _ n hn heq => listed_eq hids hds heq ?_
    refine hrunners _ ?_
    simp only [discovered, List.mem_map, Choice.mem_sortOn]
    exact ⟨_, ⟨n, hn, rfl⟩, rfl⟩
  have hnames : ((ns.map (listed cfg ds)).map (·.networkName)).Nodup := by
    change ((List.map _ (Choice.sortOn _ (ns.map (listed cfg ds)))).map _).Nodup at hnetworks
    rw [List.map_map] at hnetworks
    exact (Choice.sortOn_perm.map _).nodup_iff.mp hnetworks
  have hhomeless : (((ds.filter fun d => !(ns.flatMap fun n =>
      (project n.readable ds).2).contains d.id).map homeless).map (·.name)).Nodup :=
    (Choice.sortOn_perm.map _).nodup_iff.mp hunjoined
  have hsorted := Choice.sortOn_perm_eq hnames hlisted
  have hothers := Choice.sortOn_perm_eq hhomeless (homeless_perm hns hds)
  have hnode := @resolveDefaultNode_perm statusText ds hids ds' hds cfg.defaultNode onDisk probe
  delta discovered
  dsimp only
  rw [hsorted, hothers, hnode]

end Discovered

/-- **What is loaded does not depend on the order of the answers.** The same error is found, or the same
queues, the same own host and the same networks; and where no two have one name, the same snapshot. -/
theorem load_unordered (statusText : DaemonStatus → String) (cfg : HeyvmConfig) (a a' : Account)
    (hids : ∀ ds, a.daemons = .ok ds → (ds.map (·.id)).Nodup) (h : a'.Relisted a) :
    Agree Discovered.Alike (load statusText cfg a') (load statusText cfg a) := by
  by_cases hlocal : cfg.localRunner.isSome = true
  · rw [load, load, if_pos hlocal, if_pos hlocal]
    exact .ok ⟨fun _ => Iff.rfl, rfl, List.Perm.refl _, List.Perm.refl _, fun _ => rfl⟩
  have hremote : cfg.localRunner = none := Option.not_isSome_iff_eq_none.mp hlocal
  have hwants : ∀ {s s'}, load statusText cfg a = .ok s → load statusText cfg a' = .ok s' →
      ∀ route, s'.Wants route ↔ s.Wants route := by
    intro s s' hs hs' route
    rw [wants_load hremote hs, wants_load hremote hs']
    refine ⟨h.symm.asks fun ds' hds' => ?_, h.asks hids⟩
    obtain ⟨ds, hds, hperm⟩ := h.symm.daemons_ok hds'
    exact (hperm.map _).nodup_iff.mp (hids ds hds)
  have hdaemons := h.daemons
  have hnetworks := h.networks
  cases hns : a.networks with
  | error e =>
    rw [hns] at hnetworks
    cases hns' : a'.networks with
    | ok ns' =>
      rw [hns'] at hnetworks
      cases hnetworks
    | error e' =>
      rw [hns'] at hnetworks
      cases hnetworks
      rw [load_networks_error hremote hns, load_networks_error hremote hns']
      exact .failed (.controlPlane _)
  | ok ns =>
    obtain ⟨ns', hns', hperm⟩ := h.networks_ok hns
    have hinfos : (ns'.map (·.info)).Perm (ns.map (·.info)) :=
      Choice.perm_map_of_perm_map hperm fun n' _ n _ heq => info_eq heq
    have hcheck := checkEntries_perm hinfos cfg.networks
    rw [load_networks_ok hremote hns, load_networks_ok hremote hns']
    generalize hc' : checkEntries (ns'.map (·.info)) cfg.networks = c' at hcheck
    generalize hc : checkEntries (ns.map (·.info)) cfg.networks = c at hcheck
    cases hcheck with
    | failed halike => exact .failed halike
    | ok =>
      cases hds : a.daemons with
      | error e =>
        rw [hds] at hdaemons
        cases hds' : a'.daemons with
        | ok ds' =>
          rw [hds'] at hdaemons
          cases hdaemons
        | error e' =>
          rw [hds'] at hdaemons
          cases hdaemons
          exact .failed (.controlPlane _)
      | ok ds =>
        obtain ⟨ds', hds', hdperm⟩ := h.daemons_ok hds
        rw [hds']
        have hs : load statusText cfg a = .ok (discovered statusText cfg ns ds a.onDisk a.probe) :=
          (load_ok_iff hremote).mpr ⟨ns, ds, hns, hc, hds, rfl⟩
        have hs' : load statusText cfg a' = .ok (discovered statusText cfg ns' ds' a'.onDisk a'.probe) :=
          (load_ok_iff hremote).mpr ⟨ns', ds', hns', hc', hds', rfl⟩
        rw [h.onDisk, h.probe] at hs' ⊢
        refine .ok ⟨hwants hs hs', ?_, ?_, ?_, discovered_eq (hids ds hds) hperm hdperm⟩
        · exact resolveDefaultNode_perm (hids ds hds) hdperm _ _ _
        · exact shown_perm hperm
        · exact Choice.sortOn_perm.trans ((homeless_perm hperm hdperm).trans Choice.sortOn_perm.symm)

/-! ## An account with two networks -/

/-- A network with these members. -/
def NetworkAnswer.prod (members : List NetworkMember) : NetworkAnswer :=
  ⟨⟨"n1", "Prod", true⟩, .ok members⟩

/-- A network whose members were not told. -/
def NetworkAnswer.lab : NetworkAnswer := ⟨⟨"n2", "lab", false⟩, .error "timed out"⟩

/-- An account with a host, the machine of a job, and the two rows of one daemon. -/
def Account.two : Account where
  networks := .ok [.prod [⟨"host", "hd-1", none⟩, ⟨"deployed", "sb-9", none⟩], .lab]
  daemons := .ok [⟨"hd-1", some "box", .online⟩, ⟨"hd-0", some "box", .offline⟩]
  onDisk := none
  probe := none

/-- The other way round. -/
def Account.twoSwapped : Account where
  networks := .ok [.lab, .prod [⟨"deployed", "sb-9", none⟩, ⟨"host", "hd-1", none⟩]]
  daemons := .ok [⟨"hd-0", some "box", .offline⟩, ⟨"hd-1", some "box", .online⟩]
  onDisk := none
  probe := none

/-- An instance for `prod`. -/
def HeyvmConfig.prod : HeyvmConfig := ⟨.parse "prod", some "box", none⟩

theorem unordered_prod {members members' : List NetworkMember} (h : members'.Perm members) :
    (NetworkAnswer.prod members').unordered = (NetworkAnswer.prod members).unordered := by
  have hcoe : Multiset.ofList members' = Multiset.ofList members := Multiset.coe_eq_coe.mpr h
  rw [NetworkAnswer.unordered, NetworkAnswer.unordered, NetworkAnswer.prod, NetworkAnswer.prod]
  exact congrArg (fun ms => ((⟨"n1", "Prod", true⟩ : NetworkInfo), Except.ok ms)) hcoe

theorem relisted_two : Account.twoSwapped.Relisted .two := by
  have hprod : (NetworkAnswer.prod [⟨"deployed", "sb-9", none⟩, ⟨"host", "hd-1", none⟩]).unordered =
      (NetworkAnswer.prod [⟨"host", "hd-1", none⟩, ⟨"deployed", "sb-9", none⟩]).unordered :=
    unordered_prod (List.Perm.swap _ _ _)
  have hnetworks : ([.lab, .prod [⟨"deployed", "sb-9", none⟩, ⟨"host", "hd-1", none⟩]].map
      NetworkAnswer.unordered).Perm ([.prod [⟨"host", "hd-1", none⟩, ⟨"deployed", "sb-9", none⟩],
        .lab].map NetworkAnswer.unordered) := by
    rw [List.map_cons, List.map_cons, hprod]
    exact List.Perm.swap _ _ _
  exact ⟨congrArg Except.ok (Multiset.coe_eq_coe.mpr hnetworks),
    congrArg Except.ok (Multiset.coe_eq_coe.mpr (List.Perm.swap _ _ _)), rfl, rfl⟩

theorem load_unordered_two :
    Agree Discovered.Alike (load debugStatus .prod .twoSwapped) (load debugStatus .prod .two) := by
  refine load_unordered debugStatus .prod .two .twoSwapped (fun ds hds => ?_) relisted_two
  cases hds
  decide

end Runners

end HeyoCi
