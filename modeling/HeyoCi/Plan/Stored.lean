import HeyoCi.Lib.Codec
import HeyoCi.Plan.Build

/-!
# The stored plan of a job

A job's row has its plan as a JSON value, and the executor reads the plan from there.

* `text`, `flag`, `number`, `texts`, `textMap`, `nullable`: parts of a value;
* `imageBuild`, `target`, `fallback`, `driver`, `vmBlock`, `step`, `duration`: the parts of a
  plan;
* `plannedJob`: a plan, with the members in the order of their keys.
-/

namespace HeyoCi

namespace Stored

/-! ## Parts of a value -/

def text : Codec Json String where
  encode := .str
  decode
    | .str s => some s
    | _ => none
  decode_encode _ := rfl

def flag : Codec Json Bool where
  encode := .bool
  decode
    | .bool b => some b
    | _ => none
  decode_encode _ := rfl

def number : Codec Json Nat where
  encode n := .num n 0
  decode
    | .num (.ofNat n) 0 => some n
    | _ => none
  decode_encode _ := rfl

def items : Codec Json (List Json) where
  encode := .arr
  decode
    | .arr vs => some vs
    | _ => none
  decode_encode _ := rfl

def members : Codec Json Json.Obj where
  encode := .obj
  decode := Json.asObject
  decode_encode _ := rfl

/-- A value that may be `null`. -/
def nullable {α : Type} (c : Codec Json α) (h : ∀ a, c.encode a ≠ .null) :
    Codec Json (Option α) where
  encode a := a.elim .null c.encode
  decode v := if v = .null then some none else (c.decode v).map some
  decode_encode a := by
    cases a with
    | none => rfl
    | some a => rw [Option.elim_some, if_neg (h a), c.decode_encode, Option.map_some]

def optText : Codec Json (Option String) := nullable text nofun

def optNumber : Codec Json (Option Nat) := nullable number nofun

def texts : Codec Json (List String) := items.comp text.list

def textMap : Codec Json (List (String × String)) := members.comp (text.keyed String).list

/-- An object with some members. -/
def object {α : Type} (f : Fields String Json α) : Codec Json α := members.comp f.record

/-- An object with some members and no others: `deny_unknown_fields`. -/
def only {α : Type} (f : Fields String Json α) : Codec Json α := members.comp f.strict

/-! ## Parts of a plan -/

open Fields

def imageBuild : Codec Json ImageBuild :=
  only <| Fields.iso
    (pair (omitted optText "context" none) <| pair (required text "dockerfile") <|
      omitted optNumber "size_mb" none)
    (fun (context, dockerfile, sizeMb) => ⟨dockerfile, context, sizeMb⟩)
    (fun build => (build.context, build.dockerfile, build.sizeMb)) fun _ => rfl

/-- A plan of an older build has the node as `runner`. -/
def target : Codec Json Target :=
  object <| Fields.iso
    (pair (omitted flag "local" false) <| pair (optional optText "network" none) <|
      pair (aliased optText "node" "runner" none (by decide)) <| omitted optText "vm" none)
    (fun (isLocal, network, node, vm) => ⟨network, node, vm, isLocal⟩)
    (fun t => (t.isLocal, t.network, t.node, t.vm)) fun _ => rfl

def fallback : Codec Json Fallback where
  encode
    | .none => .str "none"
    | .any => .str "any"
  decode
    | .str "none" => some .none
    | .str "any" => some .any
    | _ => none
  decode_encode f := by cases f <;> rfl

def driver : Codec Json SandboxDriver where
  encode
    | .firecracker => .str "firecracker"
    | .kvm => .str "kvm"
    | .libvirt => .str "libvirt"
  decode
    | .str "firecracker" => some .firecracker
    | .str "kvm" => some .kvm
    | .str "libvirt" => some .libvirt
    | _ => none
  decode_encode d := by cases d <;> rfl

def optBuild : Codec Json (Option ImageBuild) := nullable imageBuild nofun

def vmBlock : Codec Json VmBlock :=
  object <| Fields.iso
    (pair (omitted optBuild "build" none) <| pair (omitted texts "cache_key_files" []) <|
      pair (omitted optNumber "disk_size_gb" none) <| pair (required driver "driver") <|
      pair (omitted textMap "env_vars" []) <| pair (omitted optText "image" none) <|
      pair (optional flag "reuse" true) <| pair (omitted texts "setup_hooks" []) <|
      pair (omitted optText "size_class" none) <| pair (omitted optNumber "ttl_seconds" none) <|
      omitted optText "working_directory" none)
    (fun (build, cacheKeyFiles, diskSizeGb, driver, envVars, image, reuse, setupHooks, sizeClass,
        ttlSeconds, workingDirectory) =>
      { image, build, reuse, workingDirectory, driver, sizeClass, diskSizeGb, envVars, setupHooks,
        cacheKeyFiles, ttlSeconds })
    (fun vm => (vm.build, vm.cacheKeyFiles, vm.diskSizeGb, vm.driver, vm.envVars, vm.image,
      vm.reuse, vm.setupHooks, vm.sizeClass, vm.ttlSeconds, vm.workingDirectory)) fun _ => rfl

def step : Codec Json StepFile :=
  only <| Fields.iso
    (pair (optional flag "continue-on-error" false) <| pair (omitted textMap "env" []) <|
      pair (omitted optText "id" none) <| pair (omitted optText "if" none) <|
      pair (omitted optText "name" none) <| pair (omitted optText "run" none) <|
      pair (omitted optText "shell" none) <| pair (omitted optNumber "timeout-minutes" none) <|
      pair (omitted optText "uses" none) <| pair (omitted textMap "with" []) <|
      omitted optText "working-directory" none)
    (fun (continueOnError, env, id, condition, name, run, shell, timeoutMinutes, uses, withArgs,
        workingDirectory) =>
      { name, id, condition, uses, run, continueOnError, env, withArgs, shell, workingDirectory,
        timeoutMinutes })
    (fun s => (s.continueOnError, s.env, s.id, s.condition, s.name, s.run, s.shell,
      s.timeoutMinutes, s.uses, s.withArgs, s.workingDirectory)) fun _ => rfl

/-- A time in whole seconds. -/
def duration : Codec Json Nat :=
  object <| Fields.iso (pair (required number "nanos") (required number "secs"))
    (fun (nanos, secs) => secs + nanos / 10 ^ 9) (fun secs => (0, secs)) fun _ => rfl

/-- The column `plan` of a job. -/
def plannedJob : Codec Json PlannedJob :=
  object <| Fields.iso
    (pair (required text "base_id") <| pair (optional optText "condition" none) <|
      pair (required flag "continue_on_error") <| pair (required text "display") <|
      pair (required textMap "env") <| pair (required flag "fail_fast") <|
      pair (required fallback "fallback") <| pair (required text "key") <|
      pair (required members "matrix") <| pair (optional optNumber "max_parallel" none) <|
      pair (required texts "needs") <| pair (required textMap "outputs") <|
      pair (required (items.comp step.list) "steps") <| pair (required target "target") <|
      pair (required duration "timeout") <| required vmBlock "vm")
    (fun (baseId, condition, continueOnError, display, env, failFast, fallback, key, mtx,
        maxParallel, needs, outputs, blocks, target, timeout, vmBlock) =>
      { key, baseId, display, target, fallback, needs, condition, mtx, env, outputs,
        continueOnError, maxParallel, failFast, vmBlock, blocks, timeout
        vm := vmBlock.toVmSpec
        steps := blocks.map fun b => b.toStep
        vm_eq := rfl
        steps_eq := rfl })
    (fun p => (p.baseId, p.condition, p.continueOnError, p.display, p.env, p.failFast, p.fallback,
      p.key, p.mtx, p.maxParallel, p.needs, p.outputs, p.blocks, p.target, p.timeout, p.vmBlock))
    (by
      rintro ⟨plan, _, _, _, hvm, hsteps⟩
      cases plan
      cases hvm
      cases hsteps
      rfl)

end Stored

end HeyoCi
