import HeyoCi.Text

/-!
# The runner pool

* `Runner`, `RunnerSet`, `Pool`: the hosts, by network, of one snapshot of the control plane;
* `RunnerSet.find`, `Pool.find`, `Pool.defaultSet`, `Pool.locate`: how a name or an id is resolved.
-/

namespace HeyoCi

inductive RunnerStatus where
  | online
  | stale
  | offline
  | orphaned
  deriving Repr, DecidableEq

namespace RunnerStatus

def isDispatchable (s : RunnerStatus) : Bool := s = online

def asStr : RunnerStatus → String
  | online => "online"
  | stale => "stale"
  | offline => "offline"
  | orphaned => "orphaned"

end RunnerStatus

structure Runner where
  id : String
  name : String
  status : RunnerStatus
  deriving Repr, DecidableEq

/-- Found by id, or by name in any case. -/
def Runner.isNamed (r : Runner) (needle : String) : Bool :=
  r.id = needle || Text.eqIgnoreAsciiCase r.name needle

/-- A network and its hosts. -/
structure RunnerSet where
  networkId : String
  networkName : String
  served : Bool
  runners : List Runner
  deriving Repr, DecidableEq

namespace RunnerSet

def find (s : RunnerSet) (needle : String) : Option Runner :=
  s.runners.find? (·.isNamed needle)

/-- The online hosts. -/
def dispatchable (s : RunnerSet) : List Runner := s.runners.filter (·.status.isDispatchable)

def isNamed (s : RunnerSet) (needle : String) : Bool :=
  s.networkId = needle || Text.eqIgnoreAsciiCase s.networkName needle

end RunnerSet

/-- One snapshot of the networks. -/
structure Pool where
  networks : List RunnerSet
  defaultNetworkId : String
  defaultNodeId : String
  deriving Repr, DecidableEq

namespace Pool

variable (pool : Pool)

def served : List RunnerSet := pool.networks.filter (·.served)

def find (needle : String) : Option RunnerSet :=
  pool.networks.find? (·.isNamed (Text.trim needle))

def defaultSet : Option RunnerSet :=
  pool.networks.find? (fun n => n.served && n.networkId = pool.defaultNetworkId) <|>
    pool.served.head?

/-- The host with an id, in the default network when it is in several. -/
def locate (nodeId : String) : Option (RunnerSet × Runner) :=
  let held := pool.served.filterMap fun set =>
    (set.runners.find? (·.id = nodeId)).map fun r => (set, r)
  held.find? (·.1.networkId = pool.defaultNetworkId) <|> held.head?

def servedNames : List String := pool.served.map (·.networkName)

end Pool

end HeyoCi
