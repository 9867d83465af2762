import HeyoCi.Dispatch.Place

/-!
# A pinned job whose host is missing

`fallback: any` lets a job that names a host run on another one of its network.

* `PinnedTo`: a job names a host; `routeFor_found`, `routeFor_missing`, `pickRunner_found`,
  `pickRunner_missing`: where it goes when its network has the host, and when it does not;
* `FallsBack`, `StaysPinned`: what `fallback: any` and `fallback: none` promise;
* **`fallback_iff`**: the second is kept, and the first unless the host is there and not online.
-/

namespace HeyoCi

/-- A job that names a host. -/
structure PinnedTo (wanted : String) (plan : JobPlan) : Prop where
  notLocal : plan.target.isLocal = false
  node : plan.target.node = some wanted

/-- **What `fallback: any` says**: without the host, or when it cannot take the job, the job goes to the
network's queue, and an online host of the network takes it if there is one. -/
def FallsBack (pool : Pool) (plan : JobPlan) (wanted : String) : Prop :=
  ∀ network, networkOf pool plan = .ok network →
    (∀ node, network.find wanted = some node → node.status.isDispatchable = false) →
      routeFor pool plan = .ok (.network network.networkId) ∧
        ((∃ r ∈ network.runners, r.status.isDispatchable = true) →
          ∃ r ∈ network.runners, r.status.isDispatchable = true ∧
            pickRunner pool plan = .ok (r.id, none))

/-- **What `fallback: none` says**: a job goes to the host it names, or nowhere. -/
structure StaysPinned (pool : Pool) (plan : JobPlan) (wanted : String) : Prop where
  route : ∀ route, routeFor pool plan = .ok route → ∃ network node,
    networkOf pool plan = .ok network ∧ network.find wanted = some node ∧ route = .runner node.id
  pick : ∀ id vm, pickRunner pool plan = .ok (id, vm) → ∃ network node,
    networkOf pool plan = .ok network ∧ network.find wanted = some node ∧ id = node.id

variable {pool : Pool} {plan : JobPlan} {wanted : String} {network : RunnerSet}

/-! ## Where a pinned job goes -/

theorem place_pinned (h : PinnedTo wanted plan) (hnet : networkOf pool plan = .ok network) :
    place pool plan = match network.find wanted with
      | some node => .ok ⟨network, some node, plan.target.vm⟩
      | none => if plan.fallback = .any ∧ plan.target.vm = none then .ok ⟨network, none, none⟩
        else .error (.unknownRunner wanted network.networkName) := by
  unfold place
  cases hfind : network.find wanted with
  | none => simp only [h.notLocal, h.node, hnet, hfind, Bool.false_eq_true, if_false, Except.bind]
  | some node =>
    simp only [h.notLocal, h.node, hnet, hfind, Bool.false_eq_true, if_false, Except.bind]

theorem place_unserved (h : PinnedTo wanted plan) {e : DispatchError}
    (hnet : networkOf pool plan = .error e) : place pool plan = .error e := by
  unfold place
  simp only [h.notLocal, hnet, Bool.false_eq_true, if_false, Except.bind]

section Found

variable (h : PinnedTo wanted plan) (hnet : networkOf pool plan = .ok network) {node : Runner}
  (hfind : network.find wanted = some node)

include h hnet hfind

theorem routeFor_found : routeFor pool plan = .ok (.runner node.id) := by
  rw [routeFor, place_pinned h hnet, hfind]
  rfl

theorem pickRunner_found : pickRunner pool plan =
    if node.status.isDispatchable then .ok (node.id, plan.target.vm)
    else .error (.runnerOffline node.name node.status) := by
  rw [pickRunner, place_pinned h hnet, hfind]
  rfl

end Found

section Missing

variable (h : PinnedTo wanted plan) (hnet : networkOf pool plan = .ok network)
  (hfind : network.find wanted = none)

include h hnet hfind

theorem place_missing (hany : plan.fallback = .any) (hvm : plan.target.vm = none) :
    place pool plan = .ok ⟨network, none, none⟩ := by
  rw [place_pinned h hnet, hfind]
  exact if_pos ⟨hany, hvm⟩

theorem place_missing_none (hnone : plan.fallback = .none) :
    place pool plan = .error (.unknownRunner wanted network.networkName) := by
  rw [place_pinned h hnet, hfind]
  refine if_neg ?_
  rintro ⟨hany, -⟩
  rw [hnone] at hany
  cases hany

theorem routeFor_missing (hany : plan.fallback = .any) (hvm : plan.target.vm = none) :
    routeFor pool plan = if network.networkId.isEmpty then .error .noNetwork
      else .ok (.network network.networkId) := by
  rw [routeFor, place_missing h hnet hfind hany hvm]
  rfl

theorem pickRunner_missing (hany : plan.fallback = .any) (hvm : plan.target.vm = none)
    (honline : ∃ r ∈ network.runners, r.status.isDispatchable = true) :
    ∃ r ∈ network.runners, r.status.isDispatchable = true ∧
      pickRunner pool plan = .ok (r.id, none) := by
  rw [pickRunner, place_missing h hnet hfind hany hvm]
  cases hhead : network.dispatchable.head? with
  | none =>
    obtain ⟨r, hr, hup⟩ := honline
    have hmem : r ∈ network.dispatchable := List.mem_filter.mpr ⟨hr, hup⟩
    rw [List.head?_eq_none_iff.mp hhead] at hmem
    cases hmem
  | some r =>
    obtain ⟨hr, hup⟩ := List.mem_filter.mp (List.mem_of_head? hhead)
    refine ⟨r, hr, hup, ?_⟩
    simp only [Except.bind, hhead]

end Missing

/-! ## What is kept -/

theorem fallsBack_iff (h : PinnedTo wanted plan) (hany : plan.fallback = .any)
    (hvm : plan.target.vm = none) : FallsBack pool plan wanted ↔
      ∀ network, networkOf pool plan = .ok network →
        (network.find wanted = none ∧ network.networkId.isEmpty = false) ∨
          ∃ node, network.find wanted = some node ∧ node.status.isDispatchable = true := by
  constructor
  · intro hfalls network hnet
    cases hfind : network.find wanted with
    | none =>
      left
      obtain ⟨hroute, -⟩ := hfalls network hnet (by simp [hfind])
      rw [routeFor_missing h hnet hfind hany hvm] at hroute
      by_cases hempty : network.networkId.isEmpty = true
      · rw [if_pos hempty] at hroute
        cases hroute
      · exact ⟨rfl, Bool.not_eq_true _ ▸ hempty⟩
    | some node =>
      right
      by_cases hup : node.status.isDispatchable = true
      · exact ⟨node, rfl, hup⟩
      · obtain ⟨hroute, -⟩ := hfalls network hnet fun n hn => by
          rw [hfind] at hn
          rw [← Option.some.inj hn]
          exact Bool.not_eq_true _ ▸ hup
        rw [routeFor_found h hnet hfind] at hroute
        cases hroute
  · intro hcond network hnet hdown
    rcases hcond network hnet with ⟨hfind, hid⟩ | ⟨node, hfind, hup⟩
    · refine ⟨?_, pickRunner_missing h hnet hfind hany hvm⟩
      rw [routeFor_missing h hnet hfind hany hvm, hid]
      rfl
    · rw [hdown node hfind] at hup
      cases hup

theorem staysPinned (h : PinnedTo wanted plan) (hnone : plan.fallback = .none) :
    StaysPinned pool plan wanted := by
  cases hnet : networkOf pool plan with
  | error e =>
    have hplace : place pool plan = .error e := place_unserved h hnet
    constructor
    · intro route hroute
      rw [routeFor, hplace] at hroute
      cases hroute
    · intro id vm hpick
      rw [pickRunner, hplace] at hpick
      cases hpick
  | ok network =>
    cases hfind : network.find wanted with
    | none =>
      have hplace := place_missing_none h hnet hfind hnone
      constructor
      · intro route hroute
        rw [routeFor, hplace] at hroute
        cases hroute
      · intro id vm hpick
        rw [pickRunner, hplace] at hpick
        cases hpick
    | some node =>
      constructor
      · intro route hroute
        rw [routeFor_found h hnet hfind] at hroute
        exact ⟨network, node, hnet, hfind, (Except.ok.inj hroute).symm⟩
      · intro id vm hpick
        rw [pickRunner_found h hnet hfind] at hpick
        split_ifs at hpick
        cases hpick
        exact ⟨network, node, hnet, hfind, rfl⟩

/-- **`fallback: none` is kept, and `fallback: any` if and only if** the host is not in the network, or
is there and online. -/
theorem fallback_iff (pool : Pool) (plan : JobPlan) (wanted : String) (h : PinnedTo wanted plan) :
    (plan.fallback = .any → plan.target.vm = none → (FallsBack pool plan wanted ↔
      ∀ network, networkOf pool plan = .ok network →
        (network.find wanted = none ∧ network.networkId.isEmpty = false) ∨
          ∃ node, network.find wanted = some node ∧ node.status.isDispatchable = true)) ∧
    (plan.fallback = .none → StaysPinned pool plan wanted) :=
  ⟨fallsBack_iff h, staysPinned h⟩

/-! ## A host that is offline -/

section Offline

private def offlinePool : Pool where
  networks := [⟨"n1", "net", true, [⟨"hd-1", "box", .offline⟩, ⟨"hd-2", "spare", .online⟩]⟩]
  defaultNetworkId := "n1"
  defaultNodeId := ""

private def pinnedPlan (wanted : String) : JobPlan :=
  { JobPlan.plain "build" [] with target := ⟨some "net", some wanted, none, false⟩, fallback := .any }

/-- A host that is in no network lets the job fall back. -/
theorem gone_falls_back : FallsBack offlinePool (pinnedPlan "gone") "gone" := by
  refine ((fallback_iff offlinePool (pinnedPlan "gone") "gone" ⟨rfl, rfl⟩).1 rfl rfl).mpr ?_
  intro network hnet
  have hset : networkOf offlinePool (pinnedPlan "gone") = .ok
      ⟨"n1", "net", true, [⟨"hd-1", "box", .offline⟩, ⟨"hd-2", "spare", .online⟩]⟩ := by rfl
  rw [hset] at hnet
  cases hnet
  exact Or.inl ⟨by decide, by decide⟩

/-- A host that is offline keeps its job. -/
theorem offline_keeps_job : ¬ ∀ (pool : Pool) (plan : JobPlan) (wanted : String),
    PinnedTo wanted plan → plan.fallback = .any → plan.target.vm = none →
      FallsBack pool plan wanted := by
  intro hall
  have hset : networkOf offlinePool (pinnedPlan "box") = .ok
      ⟨"n1", "net", true, [⟨"hd-1", "box", .offline⟩, ⟨"hd-2", "spare", .online⟩]⟩ := by rfl
  obtain ⟨hroute, -⟩ := hall offlinePool (pinnedPlan "box") "box" ⟨rfl, rfl⟩ rfl rfl _ hset
    fun node hnode => by
      have hbox : node = ⟨"hd-1", "box", .offline⟩ := (Option.some.inj hnode).symm
      rw [hbox]
      rfl
  have hkept : routeFor offlinePool (pinnedPlan "box") = .ok (.runner "hd-1") := by rfl
  rw [hkept] at hroute
  cases hroute

end Offline

end HeyoCi
