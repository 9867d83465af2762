import HeyoCi.Lib.Words
import HeyoCi.Steps.Run
import HeyoCi.Warm.Fleet

/-!
# The commands in the guests

Between taking a VM and giving it back, an execution has the daemon run commands in the guest. Each
goes by an id made of the job and of what it is, and the daemon runs one command for one id.

* `GuestOp`: the commands, with their ids; **`GuestOp.id_inj`**: an id says which it is;
* `checkoutOps`, `GuestPc`: the order of the commands of one execution;
* `GuestEvent`, `recordOf`: what was run, and what the daemon finds under an id;
* `Guests`, `guestMachine`: the instances over one pool, with their guests.
-/

namespace HeyoCi

/-- A command an execution has the daemon run in the guest. -/
inductive GuestOp where
  /-- A chunk of the submitted source. -/
  | upload (i : Nat)
  | verify
  | extract
  | step (idx : Nat)
  /-- What `ci/upload-artifact` reads. -/
  | artifact (idx : Nat)
  deriving Repr, DecidableEq

namespace GuestOp

/-- The `operationId`. -/
def id (jobId : String) : GuestOp → String
  | upload i => s!"{jobId}.checkout.u{i}"
  | verify => s!"{jobId}.checkout.uv"
  | extract => s!"{jobId}.checkout.x"
  | step idx => Store.stepId jobId idx
  | artifact idx =>
    let sid := Store.stepId jobId idx
    s!"{sid}.a"

/-- A step of the workflow, and not a part of the checkout. -/
def ofStep : GuestOp → Bool
  | step _ | artifact _ => true
  | _ => false

/-! ## An id says which command it is -/

/-- An id up to its last character that is no digit. -/
def stem (jobId : String) : GuestOp → List Char
  | upload _ | extract => jobId.toList ++ ".checkout.".toList
  | verify => jobId.toList ++ ".checkout.u".toList
  | step _ => jobId.toList
  | artifact idx => (Store.stepId jobId idx).toList ++ ['.']

/-- That character. -/
def mark : GuestOp → Char
  | upload _ => 'u'
  | verify => 'v'
  | extract => 'x'
  | step _ => '.'
  | artifact _ => 'a'

/-- The digits after it. -/
def number : GuestOp → List Char
  | upload i | step i => Nat.toDigits 10 i
  | _ => []

theorem toList_id (jobId : String) (op : GuestOp) :
    (op.id jobId).toList = op.stem jobId ++ op.mark :: op.number := by
  cases op <;> simp [id, stem, mark, number, Store.stepId, toString, Nat.repr]

theorem not_digit_mark (op : GuestOp) : ¬ op.mark.isDigit = true := by
  cases op <;> simp [mark]

theorem digit_number (op : GuestOp) : ∀ c ∈ op.number, c.isDigit = true := by
  cases op with
  | upload i | step i => exact fun c hc => Nat.isDigit_of_mem_toDigits (by omega) (by omega) hc
  | _ => exact fun c hc => absurd hc List.not_mem_nil

theorem toDigits_inj {i j : Nat} (h : Nat.toDigits 10 i = Nat.toDigits 10 j) : i = j := by
  rw [← Nat.ofDigitChars_ten_toDigits (n := i), h, Nat.ofDigitChars_ten_toDigits]

section Inj

variable {jobId jobId' : String}

/-- Equal ids have equal parts. -/
theorem parts_inj {op op' : GuestOp} (h : op.id jobId = op'.id jobId') :
    op.stem jobId = op'.stem jobId' ∧ op.mark = op'.mark ∧ op.number = op'.number := by
  have hlist := congrArg String.toList h
  rw [toList_id, toList_id] at hlist
  exact Words.last_split_inj (p := fun c => c.isDigit = true) hlist op.not_digit_mark
    op'.not_digit_mark op.digit_number op'.digit_number

theorem stepId_inj {i j : Nat} (h : Store.stepId jobId i = Store.stepId jobId' j) :
    jobId = jobId' ∧ i = j := by
  have hid : (step i).id jobId = (step j).id jobId' := h
  obtain ⟨hstem, -, hnum⟩ := parts_inj hid
  exact ⟨String.toList_inj.mp hstem, toDigits_inj hnum⟩

/-- **An id says which command of which job it is.** -/
theorem id_inj {op op' : GuestOp} (h : op.id jobId = op'.id jobId') : jobId = jobId' ∧ op = op' := by
  obtain ⟨hstem, hmark, hnum⟩ := parts_inj h
  have hjob : ∀ {rest : List Char}, jobId.toList ++ rest = jobId'.toList ++ rest →
      jobId = jobId' := fun h => String.toList_inj.mp (List.append_cancel_right h)
  cases op with
  | upload i =>
    cases op' <;> cases hmark
    exact ⟨hjob hstem, congrArg upload (toDigits_inj hnum)⟩
  | verify =>
    cases op' <;> cases hmark
    exact ⟨hjob hstem, rfl⟩
  | extract =>
    cases op' <;> cases hmark
    exact ⟨hjob hstem, rfl⟩
  | step i =>
    cases op' <;> cases hmark
    exact ⟨String.toList_inj.mp hstem, congrArg step (toDigits_inj hnum)⟩
  | artifact i =>
    cases op' <;> cases hmark
    obtain ⟨hjobs, hidx⟩ := stepId_inj (String.toList_inj.mp (List.append_cancel_right hstem))
    exact ⟨hjobs, congrArg artifact hidx⟩

end Inj

end GuestOp

/-! ## The commands of one execution -/

/-- Base64 bytes per upload. -/
def uploadChunk : Nat := 24 * 1024

/-- How many chunks `upload_bytes` makes of a payload. -/
def uploadChunks (size : Nat) : Nat :=
  let encoded := 4 * ((size + 2) / 3)
  if encoded = 0 then 1 else (encoded + uploadChunk - 1) / uploadChunk

/-- The commands of a checkout of so many bytes, in their order. -/
def checkoutOps (size : Nat) : List GuestOp :=
  (List.range (uploadChunks size)).map .upload ++ [.verify, .extract]

/-- The next thing an execution does in its VM. -/
inductive GuestPc where
  /-- The `k`-th command of the checkout. -/
  | checkout (k : Nat)
  | step (idx : Nat)
  | finished
  deriving Repr, DecidableEq

/-- How a call of the daemon ends. -/
inductive GuestReply where
  /-- The record: the command succeeded or not. -/
  | done (ok : Bool)
  /-- No record; the command was not run by this call, or it was, with this result. -/
  | failed (ran : Option Bool)
  /-- There is nothing to call: the `if:` of a step is false, or the step has no command. -/
  | skip
  /-- The execution goes no further: its steps are over, it is cancelled, or the store fails. -/
  | stop
  deriving Repr, DecidableEq

namespace GuestPc

/-- The command there. -/
def op (plan : JobPlan) (size : Nat) : GuestPc → Option GuestOp
  | checkout k => (checkoutOps size)[k]?
  | step idx => plan.steps[idx]?.bind fun step =>
      if step.run.isSome then some (.step idx)
      else if step.uses = some "ci/upload-artifact" then some (.artifact idx) else none
  | finished => none

/-- Where an execution goes on. -/
def next (plan : JobPlan) (size : Nat) : GuestPc → GuestReply → Option GuestPc
  | finished, _ => none
  | _, .stop => some finished
  | checkout k, .done true => some (if k + 1 < (checkoutOps size).length then checkout (k + 1) else step 0)
  | checkout _, .done false | checkout _, .failed _ => some finished
  | checkout _, .skip => none
  | step idx, .skip => plan.steps[idx]?.map fun _ => step (idx + 1)
  | step idx, .done ok => plan.steps[idx]?.map fun s =>
      if ok || s.continueOnError then step (idx + 1) else finished
  -- a command that was not run, or was lost, ends the steps
  | step idx, .failed _ => plan.steps[idx]?.map fun s =>
      if s.run.isNone && s.continueOnError then step (idx + 1) else finished

end GuestPc

/-! ## What was run -/

/-- A command that was run in a sandbox, for a job. -/
structure GuestEvent where
  sandbox : String
  jobId : String
  op : GuestOp
  ok : Bool
  deriving Repr, DecidableEq

/-- The command goes by this id in this sandbox. -/
def GuestEvent.named (e : GuestEvent) (sandbox id : String) : Bool :=
  e.sandbox = sandbox && e.op.id e.jobId = id

/-- What the daemon of a sandbox finds under an id. -/
def recordOf (history : List GuestEvent) (sandbox id : String) : Option GuestEvent :=
  history.find? (·.named sandbox id)

/-- What was run after that. -/
def since (history : List GuestEvent) (sandbox id : String) : List GuestEvent :=
  history.takeWhile fun e => !e.named sandbox id

theorem recordOf_eq_some {history : List GuestEvent} {sandbox id : String} {e : GuestEvent}
    (h : recordOf history sandbox id = some e) : e.named sandbox id = true ∧
      ∃ before, history = since history sandbox id ++ e :: before := by
  obtain ⟨hnamed, after, before, hsplit, hno⟩ := List.find?_eq_some_iff_append.mp h
  refine ⟨hnamed, before, ?_⟩
  rw [since, hsplit, List.takeWhile_append_of_pos hno, List.takeWhile_cons, if_neg (by simp [hnamed]),
    List.append_nil]

/-- The daemon takes an id. -/
def validOperationId (id : String) : Bool :=
  !id.isEmpty && id.utf8ByteSize ≤ 160 &&
    id.toList.all fun c => c.isAlphanum || c = '-' || c = '_' || c = '.'

/-! ## The guests of a fleet -/

/-- The VM an execution runs its steps in. -/
def VmPc.stepsIn : VmPc → Option String
  | steps s => some s
  | _ => none

theorem VmPc.stepsIn_eq_some {pc : VmPc} {s : String} : pc.stepsIn = some s ↔ pc = .steps s := by
  cases pc <;> simp [stepsIn]

/-- The instances over one pool, what each execution does in its VM, and what was run in the VMs, the
latest first. An execution goes by its client of the pool. -/
structure Guests where
  fleet : Fleet
  place : Nat → GuestPc
  history : List GuestEvent

inductive GuestAct where
  | fleet (a : FleetAct)
  | guest (i : Nat) (r : GuestReply)

namespace Guests

variable (size : String → Nat) (w : Guests)

/-- An execution leaves its steps when they are over, or when it is cut off. -/
def leaves : FleetAct → Bool
  | .attempt _ (.cutOff _) _ => true
  | .attempt i _ _ => w.fleet.attempts[i]?.all fun x => x.pc.stepsIn.isNone || w.place x.client = .finished
  | _ => true

/-- An execution outside its steps is before their beginning. -/
def placed : FleetAct → Nat → GuestPc
  | .attempt i _ _ => match w.fleet.attempts[i]? with
    | some x => if x.pc.stepsIn.isSome then w.place else Function.update w.place x.client (.checkout 0)
    | none => w.place
  | _ => w.place

/-- The command an execution calls for. -/
def calls (x : Attempt) : Option GuestOp := (w.place x.client).op x.job.plan (size x.job.id)

/-- What is run by a call with this reply, when the daemon can give it: it runs no command under an
id it has a record of, and answers with the record. -/
def ran (sandbox jobId : String) (op : Option GuestOp) : GuestReply → Option (Option GuestEvent)
  | .skip | .stop | .failed none => some none
  | .done ok => op.bind fun op => if validOperationId (op.id jobId) then
      match recordOf w.history sandbox (op.id jobId) with
      | some e => if e.ok = ok then some none else none
      | none => some (some ⟨sandbox, jobId, op, ok⟩)
    else none
  | .failed (some ok) => op.bind fun op =>
      if validOperationId (op.id jobId) && (recordOf w.history sandbox (op.id jobId)).isNone
      then some (some ⟨sandbox, jobId, op, ok⟩) else none

/-- One step. -/
def step : GuestAct → Option Guests
  | .fleet a => if w.leaves a then (w.fleet.step a).map fun f =>
      { w with fleet := f, place := w.placed a } else none
  | .guest i r => w.fleet.attempts[i]?.bind fun x => x.pc.stepsIn.bind fun s =>
      ((w.place x.client).next x.job.plan (size x.job.id) r).bind fun p =>
        (w.ran s x.job.id (w.calls size x) r).map fun e => { w with
          place := Function.update w.place x.client p
          history := e.toList ++ w.history }

def start (now : Nat) : Guests := ⟨.start now, fun _ => .checkout 0, []⟩

end Guests

/-- The instances over one pool, with their guests. The sizes are those of the submitted sources. -/
def guestMachine (size : String → Nat) : Machine Guests GuestAct where
  init w := ∃ now, w = Guests.start now
  step := Guests.step size

/-- What a step can be: a step of the fleet, or a call of an execution in its VM. -/
inductive Guests.Moves (size : String → Nat) (w : Guests) : GuestAct → Guests → Prop
  | fleet (a : FleetAct) (f : Fleet) (hl : w.leaves a = true) (hf : fleetMachine.step w.fleet a = some f) :
      Moves size w (.fleet a) { w with fleet := f, place := w.placed a }
  | guest (i : Nat) (x : Attempt) (hi : w.fleet.attempts[i]? = some x) (s : String)
      (hs : x.pc = .steps s) (r : GuestReply) (p : GuestPc)
      (hp : (w.place x.client).next x.job.plan (size x.job.id) r = some p) (e : Option GuestEvent)
      (he : w.ran s x.job.id (w.calls size x) r = some e) :
      Moves size w (.guest i r) { w with
        place := Function.update w.place x.client p
        history := e.toList ++ w.history }

/-- **Every way the guests can move.** -/
theorem guest_cases {size : String → Nat} {w w' : Guests} {a : GuestAct}
    (h : (guestMachine size).step w a = some w') : w.Moves size a w' := by
  change w.step size a = some w' at h
  cases a with
  | fleet a =>
    simp only [Guests.step] at h
    split_ifs at h with hl
    obtain ⟨f, hf, rfl⟩ := Option.map_eq_some_iff.mp h
    exact .fleet a f hl hf
  | guest i r =>
    obtain ⟨x, hi, h⟩ := Option.bind_eq_some_iff.mp h
    obtain ⟨s, hs, h⟩ := Option.bind_eq_some_iff.mp h
    obtain ⟨p, hp, h⟩ := Option.bind_eq_some_iff.mp h
    obtain ⟨e, he, rfl⟩ := Option.map_eq_some_iff.mp h
    exact .guest i x hi s (VmPc.stepsIn_eq_some.mp hs) r p hp e he

/-- A call runs its command, or the daemon has a record of it and answers with that. -/
theorem Guests.ran_cases {w : Guests} {s jobId : String} {op : Option GuestOp} {r : GuestReply}
    {e : Option GuestEvent} (h : w.ran s jobId op r = some e) :
    (∃ o ok, op = some o ∧ recordOf w.history s (o.id jobId) = none ∧ e = some ⟨s, jobId, o, ok⟩ ∧
        ∀ ok', r = .done ok' → ok' = ok) ∨
      (e = none ∧ ∀ ok, r = .done ok → ∃ o e', op = some o ∧
        recordOf w.history s (o.id jobId) = some e' ∧ e'.ok = ok) := by
  cases r with
  | skip | stop =>
    cases h
    exact Or.inr ⟨rfl, fun _ h => by cases h⟩
  | failed result =>
    cases result with
    | none =>
      cases h
      exact Or.inr ⟨rfl, fun _ h => by cases h⟩
    | some ok =>
      obtain ⟨o, ho, h⟩ := Option.bind_eq_some_iff.mp h
      split_ifs at h with hv
      cases h
      simp only [Bool.and_eq_true, Option.isNone_iff_eq_none] at hv
      exact Or.inl ⟨o, ok, ho, hv.2, rfl, fun _ h => by cases h⟩
  | done ok =>
    obtain ⟨o, ho, h⟩ := Option.bind_eq_some_iff.mp h
    split_ifs at h with hv
    cases hrec : recordOf w.history s (o.id jobId) with
    | none =>
      rw [hrec] at h
      cases h
      exact Or.inl ⟨o, ok, ho, hrec, rfl, fun _ h => by cases h; rfl⟩
    | some e' =>
      rw [hrec] at h
      simp only at h
      split_ifs at h with hok
      cases h
      exact Or.inr ⟨rfl, fun _ h => by cases h; exact ⟨o, e', ho, hrec, hok⟩⟩

/-- The fleet of the guests is one. -/
theorem Guests.fleet_reach {size : String → Nat} {w : Guests}
    (h : (guestMachine size).Reachable Machine.anyStep w) :
    fleetMachine.Reachable Machine.anyStep w.fleet := by
  refine h.inv (fun w => fleetMachine.Reachable Machine.anyStep w.fleet) ?_ fun w a w' _ hI _ hs => ?_
  · rintro _ ⟨now, rfl⟩
    exact Machine.Reachable.init ⟨now, rfl⟩
  · cases guest_cases hs with
    | fleet a f hl hf => exact hI.step trivial hf
    | guest => exact hI

end HeyoCi
