import HeyoCi.Plan
import HeyoCi.Runners

/-!
# Where a job runs

* `DispatchError` with the texts a job's row records;
* `Route`: the queue a job goes on;
* `Placement`, `networkOf`, `place`: a `uses:` value resolved against the pool;
* `routeFor`, `pickRunner`: the queue of a job, and the host that takes it.
-/

namespace HeyoCi

/-- Why the dispatcher gave up. An error of another component is kept as its text. -/
inductive DispatchError where
  | store (e : String)
  | pool (e : String)
  | bus (e : String)
  | runner (e : String)
  | vm (e : String)
  | image (e : String)
  | badPlan (e : String)
  | condition (e : String)
  | unknownJob (id : String)
  | unknownRunner (wanted network : String)
  | runnerOffline (runner : String) (status : RunnerStatus)
  | noOnlineRunner (network : String)
  | noNetwork
  | noDefaultNode
  | defaultNodeUnserved (node : String) (served : List String)
  | cancelled (job : String)
  | jobTimeout (job : String) (seconds : Nat)
  | unknownVm (wanted node : String) (available : List String)
  | unservedNetwork (wanted : String) (served : List String)
  | unknownNetwork (wanted : String) (served : List String)
  | stepFailed (reason : String)
  | checkout (reason : String)
  | secrets (reason : String)
  | artifact (reason : String)
  | trigger (e : String)
  | workflow (e : String)
  deriving Repr, DecidableEq

namespace DispatchError

def orNone (items : List String) : String :=
  if items.isEmpty then "nothing — no network in CI_NETWORK resolved" else Text.join items

open Text in
/-- `Display`. -/
def text : DispatchError → String
  | store e | pool e | bus e | runner e | vm e | image e => e
  | badPlan e => s!"the stored plan could not be read: {e}"
  | condition e => s!"an `if:` condition could not be evaluated: {e}"
  | unknownJob id => s!"no job {id} exists"
  | unknownRunner wanted net =>
    s!"no runner {debugStr wanted} is a host member of network {debugStr net}. Add it " ++
      "with `heyvm network add-host`, or set `fallback: any` on the job."
  | runnerOffline host status =>
    s!"runner {debugStr host} is {status.asStr}. The job stays queued for that host " ++
      "because moving it would discard the warm VM the pin asked for; set " ++
      "`fallback: any` to allow migrating."
  | noOnlineRunner network => s!"no host in network {debugStr network} is online to take this job"
  | noNetwork =>
    "the runner pool has not resolved a network yet; check CI_NETWORK " ++
      "and the heyvm control plane"
  | noDefaultNode =>
    "`uses: default` means the host this orchestrator runs on, and that " ++
      "host could not be identified. Set CI_DEFAULT_NODE to its daemon id " ++
      "or name — heyvmd reports its own id only when BACKEND_SERVER_ID is " ++
      "set in its environment, so it is often not discoverable."
  | cancelled job =>
    s!"job {debugStr job} was cancelled. The step that was already running was " ++
      "allowed to finish — the daemon has no way to abort one — and " ++
      "nothing after it ran."
  | jobTimeout job seconds =>
    s!"job {debugStr job} ran past CI_MAX_JOB_SECONDS ({seconds}s) and was cut off. Its VM " ++
      "is reclaimed once this dispatcher's lease on it lapses."
  | unknownVm wanted node available =>
    s!"no sandbox {debugStr wanted} exists on node {debugStr node}. `uses: " ++
      "<network>/<node>/<vm>` runs in a VM that is already there — it " ++
      s!"does not create one. On that node: {orNone available}"
  | defaultNodeUnserved node served =>
    s!"`uses: default` resolved to daemon {debugStr node}, but that host is in no " ++
      "network this orchestrator serves. Join it to one with " ++
      s!"`heyvm network add-host`. Currently serving: {orNone served}"
  | unservedNetwork wanted served =>
    s!"network {debugStr wanted} exists, but this orchestrator does not take work " ++
      "for it. Add it to CI_NETWORK (or set CI_NETWORK=*). Currently " ++
      s!"serving: {orNone served}"
  | unknownNetwork wanted served =>
    s!"no heyvm network is named {debugStr wanted}. Check the job's `uses:` or the " ++
      s!"repository's assigned network on /repos. Currently serving: {orNone served}"
  | stepFailed reason | secrets reason | artifact reason | trigger reason | workflow reason => reason
  | checkout reason => s!"checkout failed: {reason}"

end DispatchError

/-- The queue a job goes on. -/
inductive Route where
  | runner (id : String)
  | network (id : String)
  deriving Repr, DecidableEq

/-- Where one job runs, resolved against the pool. -/
structure Placement where
  network : RunnerSet
  node : Option Runner
  vm : Option String
  deriving Repr, DecidableEq

/-- The network a job runs in. -/
def networkOf (pool : Pool) (plan : JobPlan) : Except DispatchError RunnerSet :=
  match plan.target.network.map Text.trim with
  | none => match pool.defaultSet with
    | some set => .ok set
    | none => .error .noNetwork
  | some wanted => match pool.find wanted with
    | some set => if set.served then .ok set
      else .error (.unservedNetwork set.networkName pool.servedNames)
    | none => .error (.unknownNetwork wanted pool.servedNames)

/-- Where a job runs: a network, a pinned host, an existing VM on it. -/
def place (pool : Pool) (plan : JobPlan) : Except DispatchError Placement :=
  if plan.target.isLocal then
    if pool.defaultNodeId.isEmpty then .error .noDefaultNode
    else match pool.locate pool.defaultNodeId with
      | some (network, node) => .ok ⟨network, some node, plan.target.vm⟩
      | none => .error (.defaultNodeUnserved pool.defaultNodeId pool.servedNames)
  else (networkOf pool plan).bind fun network => match plan.target.node with
    | none => .ok ⟨network, none, none⟩
    | some wanted => match network.find wanted with
      | some node => .ok ⟨network, some node, plan.target.vm⟩
      | none =>
        -- a job that named a VM cannot fall back to a host that does not have it
        if plan.fallback = .any ∧ plan.target.vm = none then .ok ⟨network, none, none⟩
        else .error (.unknownRunner wanted network.networkName)

/-- Which queue a job goes on. -/
def routeFor (pool : Pool) (plan : JobPlan) : Except DispatchError Route :=
  (place pool plan).bind fun placement => match placement.node with
    | some node => .ok (.runner node.id)
    | none => if placement.network.networkId.isEmpty then .error .noNetwork
      else .ok (.network placement.network.networkId)

/-- The online host that takes a job, and the existing VM on it that `uses:` named. -/
def pickRunner (pool : Pool) (plan : JobPlan) : Except DispatchError (String × Option String) :=
  (place pool plan).bind fun placement => match placement.node with
    | some node => if node.status.isDispatchable then .ok (node.id, placement.vm)
      else .error (.runnerOffline node.name node.status)
    | none => match placement.network.dispatchable.head? with
      | some r => .ok (r.id, placement.vm)
      | none => .error (.noOnlineRunner placement.network.networkName)

/-! ## A job for any host -/

/-- A job of one step, on any host of the network, without an `if:`. -/
def JobPlan.plain (key : String) (needs : List String) : JobPlan where
  key := key
  baseId := key
  display := key
  target := ⟨some "net", none, none, false⟩
  fallback := .none
  vm := ⟨none, none, true, none⟩
  needs := needs
  condition := none
  mtx := []
  env := []
  outputs := []
  continueOnError := false
  steps := [⟨none, none, none, none, some "make", false⟩]
  maxParallel := none
  failFast := true

/-- The plan of one such job. -/
def Plan.single : Plan := ⟨".ci/build.yml", none, [.plain "build" []], by decide⟩

/-- One network with one online host. -/
def Pool.single : Pool where
  networks := [⟨"n1", "net", true, [⟨"hd-1", "host", .online⟩]⟩]
  defaultNetworkId := "n1"
  defaultNodeId := "hd-1"

end HeyoCi
