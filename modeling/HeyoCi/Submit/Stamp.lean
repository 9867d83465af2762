import HeyoCi.Dispatch.Consume
import HeyoCi.Submit.Submit

/-!
# The stamp of a submit

`assign_network` places every job and writes the names of the network and of the host it found over
what the author wrote. From then on the job is placed by those names, and the first entry of the
snapshot that answers to a name, or has it as its id, is taken.

* `defaulted`, `Target.stamp`: a target before and after;
* `placeRemote_iff`, `networkOf_named`: what `place` answers, by what is found;
* `Agrees`, `KeepsPlace`: two placements of one job, and a stamp that keeps the placement;
* `FoundAgain`, `Unambiguous`: the names lead back to what they are the names of;
* **`stamp_kept_iff`**: the stamp of a plan is stable exactly when they do;
* `stamp_moves`: two networks of one name.
-/

namespace HeyoCi

/-- The target of a job, in the default network when it names none. -/
def defaulted (defaultNetwork : Option String) (job : JobPlan) : Target :=
  if job.target.network.isNone && !job.target.isLocal && defaultNetwork.isSome
    then { job.target with network := defaultNetwork } else job.target

/-- The canonical names over what the author wrote. -/
def Target.stamp (t : Target) (p : Placement) : Target :=
  { t with network := some p.network.networkName, node := (p.node.map (·.name)) <|> t.node }

/-- The job with the names of its placement. -/
def JobPlan.stamp (job : JobPlan) (p : Placement) : JobPlan :=
  { job with target := job.target.stamp p }

/-- Two placements are in the same network, on the same host or both on none, and in the same VM. -/
def Placement.Agrees (p p' : Placement) : Prop :=
  p'.network.networkId = p.network.networkId ∧ p'.node.map (·.id) = p.node.map (·.id) ∧ p'.vm = p.vm

/-- The network and the host are found again under their names; a host that was not there is not
found in the network either. -/
def FoundAgain (pool : Pool) (network : RunnerSet) (node : Option String) : Prop :=
  ∃ set, pool.find (Text.trim network.networkName) = some set ∧ set.served = true ∧
    set.networkId = network.networkId ∧ set.networkName = network.networkName ∧
    ∀ wanted, node = some wanted → match network.find wanted with
      | none => set.find wanted = none
      | some r => ∃ r', set.find r.name = some r' ∧ r'.id = r.id ∧ r'.name = r.name

/-- A job runs on the host of the orchestrator, or what it names is found again. -/
def Unambiguous (pool : Pool) (job : JobPlan) : Prop :=
  job.target.isLocal = true ∨
    ∃ network, networkOf pool job = .ok network ∧ FoundAgain pool network job.target.node

/-! ## What a job is placed on -/

section Place

variable {pool : Pool} {job : JobPlan} {p : Placement}

/-- The host and the VM of a job in its network. -/
def Hosts (job : JobPlan) (p : Placement) : Prop := match job.target.node with
  | none => p.node = none ∧ p.vm = none
  | some wanted => match p.network.find wanted with
    | some r => p.node = some r ∧ p.vm = job.target.vm
    | none => (job.fallback = .any ∧ job.target.vm = none) ∧ p.node = none ∧ p.vm = none

theorem placeRemote_iff (hl : job.target.isLocal = false) :
    place pool job = .ok p ↔ networkOf pool job = .ok p.network ∧ Hosts job p := by
  have hl' : ¬ job.target.isLocal = true := by rw [hl]; exact Bool.false_ne_true
  unfold place
  rw [if_neg hl']
  obtain ⟨network, node, vm⟩ := p
  cases hnet : networkOf pool job with
  | error e => simp [Except.bind]
  | ok set =>
    simp only [Except.bind, Except.ok.injEq, Hosts]
    cases job.target.node with
    | none =>
      simp only [Except.ok.injEq, Placement.mk.injEq]
      constructor
      · rintro ⟨h, hn, hv⟩
        exact ⟨h, hn.symm, hv.symm⟩
      · rintro ⟨h, hn, hv⟩
        exact ⟨h, hn.symm, hv.symm⟩
    | some wanted =>
      by_cases hset : set = network
      · subst hset
        simp only [true_and]
        cases set.find wanted with
        | none =>
          split_ifs with hf
          · simp [hf, eq_comm]
          · constructor
            · intro h
              cases h
            · exact fun h => absurd h.1 hf
        | some r => simp [eq_comm]
      · simp only [hset, false_and, iff_false]
        intro h
        split at h
        · cases h
          exact hset rfl
        · split_ifs at h
          cases h
          exact hset rfl

theorem networkOf_named {name : String} (hn : job.target.network = some name) {set : RunnerSet} :
    networkOf pool job = .ok set ↔ pool.find (Text.trim name) = some set ∧ set.served = true := by
  unfold networkOf
  rw [hn]
  simp only [Option.map_some]
  cases pool.find (Text.trim name) with
  | none => simp
  | some set' =>
    simp only [Option.some.injEq]
    split_ifs with hs
    · simp only [Except.ok.injEq]
      exact ⟨fun h => ⟨h, h ▸ hs⟩, And.left⟩
    · refine ⟨nofun, ?_⟩
      rintro ⟨rfl, hs'⟩
      exact absurd hs' hs

/-- A job on the host of the orchestrator is placed without a look at its network and its node. -/
theorem place_local {job' : JobPlan} (hl : job.target.isLocal = true)
    (hl' : job'.target.isLocal = true) (hv : job'.target.vm = job.target.vm) :
    place pool job' = place pool job := by
  unfold place
  rw [if_pos hl, if_pos hl', hv]

end Place

/-! ## One job -/

section Job

variable {pool : Pool} {job : JobPlan} {p : Placement}

/-- A stamp keeps the placement of a job, and another stamp changes nothing. -/
def KeepsPlace (pool : Pool) (job : JobPlan) (p : Placement) : Prop :=
  ∃ p', place pool (job.stamp p) = .ok p' ∧ p.Agrees p' ∧ (job.stamp p).stamp p' = job.stamp p

theorem keepsPlace_of_local (hl : job.target.isLocal = true) (h : place pool job = .ok p) :
    KeepsPlace pool job p := by
  refine ⟨p, ?_, ⟨rfl, rfl, rfl⟩, ?_⟩
  · rw [← h]
    exact place_local hl hl rfl
  · cases hn : p.node <;> simp [JobPlan.stamp, Target.stamp, hn]

theorem keepsPlace_of_found (hl : job.target.isLocal = false) (h : place pool job = .ok p)
    (hf : FoundAgain pool p.network job.target.node) : KeepsPlace pool job p := by
  obtain ⟨set, hset, hserved, hid, hname, hnode⟩ := hf
  obtain ⟨-, hhosts⟩ := (placeRemote_iff hl).mp h
  have hl' : (job.stamp p).target.isLocal = false := hl
  have hnet : networkOf pool (job.stamp p) = .ok set := (networkOf_named rfl).mpr ⟨hset, hserved⟩
  unfold Hosts at hhosts
  cases hn : job.target.node with
  | none =>
    rw [hn] at hhosts
    refine ⟨⟨set, none, none⟩, (placeRemote_iff hl').mpr ⟨hnet, ?_⟩, ⟨hid, ?_, ?_⟩, ?_⟩
    · simp [Hosts, JobPlan.stamp, Target.stamp, hn, hhosts.1]
    · rw [hhosts.1]
    · rw [hhosts.2]
    · simp [JobPlan.stamp, Target.stamp, hname]
  | some wanted =>
    have hwanted := hnode wanted hn
    rw [hn] at hhosts
    cases hr : p.network.find wanted with
    | none =>
      simp only [hr] at hhosts hwanted
      obtain ⟨hfall, hpn, hpv⟩ := hhosts
      refine ⟨⟨set, none, none⟩, (placeRemote_iff hl').mpr ⟨hnet, ?_⟩, ⟨hid, ?_, ?_⟩, ?_⟩
      · simpa [Hosts, JobPlan.stamp, Target.stamp, hn, hpn, hwanted] using hfall
      · rw [hpn]
      · rw [hpv]
      · simp [JobPlan.stamp, Target.stamp, hname]
    | some r =>
      simp only [hr] at hhosts hwanted
      obtain ⟨hpn, hpv⟩ := hhosts
      obtain ⟨r', hr', hrid, hrname⟩ := hwanted
      refine ⟨⟨set, some r', job.target.vm⟩, (placeRemote_iff hl').mpr ⟨hnet, ?_⟩, ⟨hid, ?_, ?_⟩, ?_⟩
      · simp [Hosts, JobPlan.stamp, Target.stamp, hpn, hr']
      · rw [hpn, Option.map_some, Option.map_some, hrid]
      · rw [hpv]
      · simp [JobPlan.stamp, Target.stamp, hname, hpn, hrname]

theorem found_of_keepsPlace (hl : job.target.isLocal = false) (h : place pool job = .ok p)
    (hk : KeepsPlace pool job p) : FoundAgain pool p.network job.target.node := by
  obtain ⟨p', hp', ⟨hid, hnid, -⟩, hstamp⟩ := hk
  obtain ⟨-, hhosts⟩ := (placeRemote_iff hl).mp h
  have hl' : (job.stamp p).target.isLocal = false := hl
  obtain ⟨hnet', hhosts'⟩ := (placeRemote_iff hl').mp hp'
  obtain ⟨hset, hserved⟩ := (networkOf_named rfl).mp hnet'
  have hname := congrArg (·.target.network) hstamp
  have hnode := congrArg (·.target.node) hstamp
  simp only [JobPlan.stamp, Target.stamp, Option.some.injEq] at hname hnode
  refine ⟨p'.network, hset, hserved, hid, hname, fun wanted hn => ?_⟩
  simp only [Hosts, hn] at hhosts
  cases hr : p.network.find wanted with
  | none =>
    simp only [hr] at hhosts
    simp only [Hosts, JobPlan.stamp, Target.stamp, hhosts.2.1, hn] at hhosts'
    cases hr' : p'.network.find wanted with
    | none => rfl
    | some r' =>
      simp [hr'] at hhosts'
      simp [hhosts.2.1, hhosts'.1] at hnid
  | some r =>
    simp only [hr] at hhosts
    simp only [Hosts, JobPlan.stamp, Target.stamp, hhosts.1] at hhosts'
    cases hr' : p'.network.find r.name with
    | none =>
      simp [hr'] at hhosts'
      simp [hhosts.1, hhosts'.2.1] at hnid
    | some r' =>
      simp [hr'] at hhosts'
      simp [hhosts.1, hhosts'.1] at hnid hnode
      exact ⟨r', hr', hnid, hnode⟩

/-- **The stamp of a job is stable exactly when its names are unambiguous.** -/
theorem keepsPlace_iff (h : place pool job = .ok p) : KeepsPlace pool job p ↔ Unambiguous pool job := by
  cases hl : job.target.isLocal with
  | true => exact ⟨fun _ => Or.inl hl, fun _ => keepsPlace_of_local hl h⟩
  | false =>
    have hnet := ((placeRemote_iff hl).mp h).1
    constructor
    · exact fun hk => Or.inr ⟨p.network, hnet, found_of_keepsPlace hl h hk⟩
    · rintro (hl' | ⟨network, hnet', hf⟩)
      · rw [hl] at hl'
        cases hl'
      · cases hnet.symm.trans hnet'
        exact keepsPlace_of_found hl h hf

end Job

/-! ## A plan -/

section Assign

variable {pool : Pool} {runnerWait : Nat} {defaultNetwork : Option String}

theorem mapM_ok_iff {α β ε : Type*} {f : α → Except ε β} {l : List α} :
    (∃ ys, l.mapM f = .ok ys) ↔ ∀ a ∈ l, ∃ b, f a = .ok b := by
  induction l with
  | nil => simp [pure, Except.pure]
  | cons a l ih =>
    simp only [List.mapM_cons, List.mem_cons, forall_eq_or_imp, ← ih]
    cases f a with
    | error e => simp [bind, Except.bind]
    | ok b =>
      cases l.mapM f with
      | error e => simp [bind, Except.bind]
      | ok bs => simp [bind, Except.bind, pure, Except.pure]

/-- The job with its network filled in. -/
def JobPlan.fill (defaultNetwork : Option String) (job : JobPlan) : JobPlan :=
  { job with target := defaulted defaultNetwork job }

/-- A job is resolved by its placement. -/
theorem resolveTarget_ok {job : JobPlan} {t : Target} :
    (∃ ws, resolveTarget pool runnerWait defaultNetwork job = .ok (t, ws)) ↔
      ∃ p, place pool (job.fill defaultNetwork) = .ok p ∧
        t = ((job.fill defaultNetwork).stamp p).target := by
  change (∃ ws, (place pool (job.fill defaultNetwork)).map _ = _) ↔ _
  cases place pool (job.fill defaultNetwork) with
  | error e => simp [Except.map]
  | ok p =>
    simp only [Except.map, Except.ok.injEq, Prod.mk.injEq, exists_and_left, exists_eq', and_true,
      exists_eq_left']
    exact eq_comm

/-- The target a job is given. -/
def retargeted (pool : Pool) (runnerWait : Nat) (defaultNetwork : Option String) (job : JobPlan) :
    Target := match resolveTarget pool runnerWait defaultNetwork job with
  | .ok (target, _) => target
  | .error _ => job.target

theorem retargeted_of_place {job : JobPlan} {p : Placement}
    (h : place pool (job.fill defaultNetwork) = .ok p) :
    retargeted pool runnerWait defaultNetwork job =
      ((job.fill defaultNetwork).stamp p).target := by
  obtain ⟨ws, hr⟩ := resolveTarget_ok.mpr ⟨p, h, rfl⟩
  rw [retargeted, hr]

/-- A plan is accepted when each of its jobs is placed. -/
theorem assignNetwork_ok {plan stamped : Plan} :
    (∃ ws, assignNetwork pool runnerWait defaultNetwork plan = .ok (stamped, ws)) ↔
      (∀ job ∈ plan.jobs, ∃ p, place pool (job.fill defaultNetwork) = .ok p) ∧
        stamped = plan.retarget (retargeted pool runnerWait defaultNetwork) := by
  have hplaced : (∃ ys, plan.jobs.mapM (resolveTarget pool runnerWait defaultNetwork) = .ok ys) ↔
      ∀ job ∈ plan.jobs, ∃ p, place pool (job.fill defaultNetwork) = .ok p := by
    refine mapM_ok_iff.trans (forall_congr' fun job => imp_congr_right fun _ => ?_)
    constructor
    · rintro ⟨⟨t, ws⟩, ht⟩
      obtain ⟨p, hp, -⟩ := resolveTarget_ok.mp ⟨ws, ht⟩
      exact ⟨p, hp⟩
    · rintro ⟨p, hp⟩
      obtain ⟨ws, hr⟩ := resolveTarget_ok.mpr ⟨p, hp, rfl⟩
      exact ⟨_, hr⟩
  rw [← hplaced]
  unfold assignNetwork
  cases plan.jobs.mapM (resolveTarget pool runnerWait defaultNetwork) with
  | error e => simp [Except.map]
  | ok resolved =>
    simp only [Except.map, Except.ok.injEq, Prod.mk.injEq, exists_and_left, exists_eq', and_true,
      true_and]
    exact eq_comm

theorem Plan.retarget_eq_iff {plan : Plan} {f : JobPlan → Target} :
    plan = plan.retarget f ↔ ∀ job ∈ plan.jobs, f job = job.target := by
  obtain ⟨path, name, jobs, hneeds⟩ := plan
  simp only [Plan.retarget, Plan.mk.injEq, true_and]
  rw [eq_comm]
  nth_rewrite 2 [← List.map_id jobs]
  rw [List.map_inj_left]
  refine forall_congr' fun job => imp_congr_right fun _ => ?_
  constructor
  · exact fun h => congrArg JobPlan.target h
  · exact fun h => by rw [h, id]

/-- A job with a network has none to fill in. -/
theorem fill_stamp {job : JobPlan} {p : Placement} :
    (job.stamp p).fill defaultNetwork = job.stamp p := rfl

theorem JobPlan.stamp_eq_self {job : JobPlan} {p : Placement}
    (h : (job.stamp p).target = job.target) : job.stamp p = job := by
  have hset : job.stamp p = { job with target := (job.stamp p).target } := rfl
  rw [hset, h]

end Assign

/-- **A stamp is stable exactly when the names it writes are unambiguous**: every job of the stamped
plan is placed as before, and a second stamp changes nothing. -/
theorem stamp_kept_iff (pool : Pool) (runnerWait : Nat) (defaultNetwork : Option String)
    (plan stamped : Plan) (ws : List String)
    (h : assignNetwork pool runnerWait defaultNetwork plan = .ok (stamped, ws)) :
    ((∀ (i : Nat) (job job' : JobPlan), plan.jobs[i]? = some job → stamped.jobs[i]? = some job' →
        ∃ p p', place pool (job.fill defaultNetwork) = .ok p ∧ place pool job' = .ok p' ∧
          p.Agrees p') ∧
      ∃ ws', assignNetwork pool runnerWait defaultNetwork stamped = .ok (stamped, ws')) ↔
    ∀ job ∈ plan.jobs, Unambiguous pool (job.fill defaultNetwork) := by
  obtain ⟨hplaced, rfl⟩ := assignNetwork_ok.mp ⟨ws, h⟩
  have hstamped : ∀ (i : Nat) (job : JobPlan) (p : Placement), plan.jobs[i]? = some job →
      place pool (job.fill defaultNetwork) = .ok p →
      (plan.retarget (retargeted pool runnerWait defaultNetwork)).jobs[i]? =
        some ((job.fill defaultNetwork).stamp p) := by
    intro i job p hi hp
    simp only [Plan.retarget, List.getElem?_map, hi, Option.map_some, retargeted_of_place hp]
    rfl
  rw [assignNetwork_ok, Plan.retarget_eq_iff]
  constructor
  · rintro ⟨hagree, -, hsame⟩ job hjob
    obtain ⟨i, hi⟩ := List.getElem?_of_mem hjob
    obtain ⟨p, hp⟩ := hplaced job hjob
    obtain ⟨q, p', hq, hp', hag⟩ := hagree i job _ hi (hstamped i job p hi hp)
    cases hp.symm.trans hq
    have htarget := hsame _ (List.mem_of_getElem? (hstamped i job p hi hp))
    rw [retargeted_of_place (by rwa [fill_stamp]), fill_stamp] at htarget
    exact (keepsPlace_iff hp).mp ⟨p', hp', hag, JobPlan.stamp_eq_self htarget⟩
  · intro hun
    have hkeeps : ∀ (i : Nat) (job' : JobPlan),
        (plan.retarget (retargeted pool runnerWait defaultNetwork)).jobs[i]? = some job' →
        ∃ job p, plan.jobs[i]? = some job ∧ place pool (job.fill defaultNetwork) = .ok p ∧
          job' = (job.fill defaultNetwork).stamp p ∧ KeepsPlace pool (job.fill defaultNetwork) p := by
      intro i job' hi'
      have hi := hi'
      simp only [Plan.retarget, List.getElem?_map, Option.map_eq_some_iff] at hi
      obtain ⟨job, hi, -⟩ := hi
      obtain ⟨p, hp⟩ := hplaced job (List.mem_of_getElem? hi)
      cases hi'.symm.trans (hstamped i job p hi hp)
      exact ⟨job, p, hi, hp, rfl, (keepsPlace_iff hp).mpr (hun job (List.mem_of_getElem? hi))⟩
    refine ⟨fun i job job' hi hi' => ?_, fun job' hjob' => ?_, fun job' hjob' => ?_⟩
    · obtain ⟨job₁, p, hi₁, hp, rfl, p', hp', hag, -⟩ := hkeeps i job' hi'
      cases hi.symm.trans hi₁
      exact ⟨p, p', hp, hp', hag⟩
    · obtain ⟨i, hi'⟩ := List.getElem?_of_mem hjob'
      obtain ⟨job, p, -, -, rfl, p', hp', -⟩ := hkeeps i job' hi'
      exact ⟨p', hp'⟩
    · obtain ⟨i, hi'⟩ := List.getElem?_of_mem hjob'
      obtain ⟨job, p, -, -, rfl, p', hp', -, hsame⟩ := hkeeps i job' hi'
      rw [retargeted_of_place (by rwa [fill_stamp]), fill_stamp, hsame]

/-- One job for any host of the one network there is. -/
theorem stamp_kept_single : ∃ p p', place Pool.single (.plain "build" []) = .ok p ∧
    place Pool.single (.plain "build" []) = .ok p' ∧ p.Agrees p' := by
  have h : assignNetwork Pool.single 900 none .single = .ok (.single, []) := by decide
  refine ((stamp_kept_iff _ _ _ _ _ _ h).mpr fun job hjob => ?_).1 0 _ _ rfl rfl
  obtain rfl := List.mem_singleton.mp hjob
  exact Or.inr ⟨_, rfl, _, rfl, rfl, rfl, rfl, nofun⟩

/-- Two networks of one name. -/
def Pool.twins : Pool where
  networks := [⟨"n1", "net", true, []⟩, ⟨"n2", "net", true, []⟩]
  defaultNetworkId := "n1"
  defaultNodeId := ""

/-- A job for the second of them, by its id, is moved to the first. -/
theorem stamp_moves : ¬ ∀ (pool : Pool) (runnerWait : Nat) (defaultNetwork : Option String)
    (plan stamped : Plan) (ws : List String),
    assignNetwork pool runnerWait defaultNetwork plan = .ok (stamped, ws) →
    (∀ (i : Nat) (job job' : JobPlan), plan.jobs[i]? = some job → stamped.jobs[i]? = some job' →
        ∃ p p', place pool (job.fill defaultNetwork) = .ok p ∧ place pool job' = .ok p' ∧
          p.Agrees p') ∧
      ∃ ws', assignNetwork pool runnerWait defaultNetwork stamped = .ok (stamped, ws') := by
  intro h
  have hassign : assignNetwork .twins 900 none
      (Plan.single.retarget fun _ => ⟨some "n2", none, none, false⟩) = .ok (.single, []) := by
    decide
  obtain ⟨p, p', hp, hp', hid, -⟩ := (h _ _ _ _ _ _ hassign).1 0 _ _ rfl rfl
  have hbefore : p.network.networkId = "n2" := by
    cases hp
    rfl
  have hafter : p'.network.networkId = "n1" := by
    cases hp'
    rfl
  rw [hbefore, hafter] at hid
  exact absurd hid (by decide)

end HeyoCi
