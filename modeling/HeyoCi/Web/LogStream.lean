import Mathlib.Logic.Function.Basic
import HeyoCi.Lib.Machine
import HeyoCi.Lib.Offsets
import HeyoCi.Store.Rows

/-!
# The tail of a job's logs

A page follows the logs of a job's steps: the server polls the job's row, its steps and their files,
and sends what is new. Anything may happen between two of its reads, and a read may fail.

* `Logs`, `Change`: the job, its steps and their files, and how these grow;
* `Tail`, `Tail.poll`: what a stream keeps and has sent, and the body of its loop over the steps;
* `LogStream`, `LogStream.machine`: the stream beside the job, one read a step;
* `sentText`: what was sent of a step's log;
* `LogStream.Inv`, `inv_step`: what holds at each place of the loop;
* **`sent_and_done`**: what is sent of a log is a prefix of it, and a poll that ends the stream has
  sent all that was there when it read the job's row, if its reads went well;
* `done_not_exact`: it may have sent more.
-/

namespace HeyoCi

open Offsets

/-! ## The logs -/

/-- What the tail reads of a row of `ci_step`: its number, and whether it has the path of a log. -/
structure StepLog where
  idx : Int
  hasLog : Bool
  deriving Repr, DecidableEq

/-- The job's row, the rows of its steps in their order, and their files. -/
structure Logs where
  status : Option JobStatus
  steps : List StepLog
  text : Int → List Char

/-- Insert a step in the order of the numbers. -/
def insertStep (step : StepLog) : List StepLog → List StepLog
  | [] => [step]
  | s :: steps => if step.idx < s.idx then step :: s :: steps else s :: insertStep step steps

/-- What the rest of the system does meanwhile. -/
inductive Change where
  | setStatus (status : JobStatus)
  /-- `create_step`. -/
  | addStep (idx : Int)
  /-- `append_log`, up to the file. -/
  | write (idx : Int) (text : List Char)
  /-- `append_log`, the row: its `log_path`. -/
  | record (idx : Int)
  deriving Repr, DecidableEq

def Logs.change (logs : Logs) : Change → Logs
  | .setStatus status => { logs with status := some status }
  | .addStep idx => if logs.steps.any fun s => s.idx = idx then logs else
      { logs with steps := insertStep ⟨idx, false⟩ logs.steps }
  | .write idx text => { logs with text := Function.update logs.text idx (logs.text idx ++ text) }
  | .record idx => { logs with
      steps := logs.steps.map fun s => if s.idx = idx then { s with hasLog := true } else s }

/-- A step's row has the path of its log. -/
def Logs.Recorded (logs : Logs) (idx : Int) : Prop := ⟨idx, true⟩ ∈ logs.steps

/-- Logs only grow. -/
structure Logs.Le (logs logs' : Logs) : Prop where
  text : ∀ idx, logs.text idx <+: logs'.text idx
  recorded : ∀ idx, logs.Recorded idx → logs'.Recorded idx

theorem Logs.Le.refl (logs : Logs) : logs.Le logs := ⟨fun _ => List.prefix_rfl, fun _ h => h⟩

theorem Logs.Le.trans {logs logs' logs'' : Logs} (h : logs.Le logs') (h' : logs'.Le logs'') :
    logs.Le logs'' :=
  ⟨fun idx => (h.text idx).trans (h'.text idx), fun idx hr => h'.recorded idx (h.recorded idx hr)⟩

theorem mem_insertStep {step s : StepLog} {steps : List StepLog} (h : s ∈ steps) :
    s ∈ insertStep step steps := by
  induction steps with
  | nil => cases h
  | cons s' steps ih =>
    rw [insertStep]
    split_ifs
    · exact List.mem_cons_of_mem step h
    · rcases List.mem_cons.mp h with rfl | h
      · exact List.mem_cons_self
      · exact List.mem_cons_of_mem s' (ih h)

theorem Logs.le_change (logs : Logs) (c : Change) : logs.Le (logs.change c) := by
  cases c with
  | setStatus status => exact ⟨fun _ => List.prefix_rfl, fun _ h => h⟩
  | addStep idx =>
    rw [Logs.change]
    split_ifs
    · exact Logs.Le.refl logs
    · exact ⟨fun _ => List.prefix_rfl, fun _ h => mem_insertStep h⟩
  | write idx text =>
    refine ⟨fun idx' => ?_, fun _ h => h⟩
    change logs.text idx' <+: Function.update logs.text idx (logs.text idx ++ text) idx'
    by_cases heq : idx' = idx
    · rw [heq, Function.update_self]
      exact List.prefix_append _ _
    · exact ⟨[], by rw [List.append_nil, Function.update_of_ne heq]⟩
  | record idx =>
    refine ⟨fun _ => List.prefix_rfl, fun idx' h => ?_⟩
    refine List.mem_map.mpr ⟨_, h, ?_⟩
    split_ifs <;> rfl

/-! ## The stream -/

/-- What is sent to the page. -/
inductive SseEvent where
  | log (idx : Int) (text : List Char)
  | done
  deriving Repr, DecidableEq

/-- What a stream keeps: the bytes that are sent of each step's log; and what it has sent. -/
structure Tail where
  sent : Int → Nat
  out : List SseEvent

/-- The body of the loop over the steps, with the text that was read of a step's log. -/
def Tail.poll (tail : Tail) (idx : Int) (text : List Char) : Tail :=
  let len := total Char.utf8Size text
  let already := tail.sent idx
  if already < len then
    -- on to a character boundary
    let cut := ceil Char.utf8Size text len (min already len)
    let fresh := (dropTo Char.utf8Size text cut).getD []
    { sent := Function.update tail.sent idx len
      out := if fresh.isEmpty then tail.out else tail.out ++ [.log idx fresh] }
  else tail

/-- Where a stream is in its loop. -/
inductive Phase where
  | top
  /-- The job's row was read. -/
  | listed (status : JobStatus)
  /-- The steps were read, and the logs of some of them not yet. -/
  | reading (status : JobStatus) (rest : List StepLog)
  | ended
  deriving Repr, DecidableEq

/-- A stream beside a job. The last two fields are read by nothing: the logs when the job's row was
last read, and whether all reads went well since. -/
structure LogStream where
  logs : Logs
  tail : Tail
  phase : Phase
  atRow : Logs
  clean : Bool

namespace LogStream

/-- One thing that happens: a change, or the next read of the stream, which may fail. -/
inductive Label where
  | change (c : Change)
  | readJob (ok : Bool)
  | readSteps (ok : Bool)
  | readLog (ok : Bool)
  | endPoll
  deriving Repr, DecidableEq

/-- `log_stream`, one read at a time. -/
def step (s : LogStream) : Label → Option LogStream
  | .change c => some { s with logs := s.logs.change c }
  | .readJob ok => match s.phase with
    | .top => match ok, s.logs.status with
      | true, some status => some { s with phase := .listed status, atRow := s.logs, clean := true }
      | _, _ => some { s with phase := .ended, clean := false }
    | _ => none
  | .readSteps ok => match s.phase with
    | .listed status => some { s with
        phase := .reading status (if ok then s.logs.steps else [])
        clean := ok }
    | _ => none
  | .readLog ok => match s.phase with
    | .reading status (row :: rest) =>
      let text := if row.hasLog && ok then s.logs.text row.idx else []
      some { s with
        tail := s.tail.poll row.idx text
        phase := .reading status rest
        clean := s.clean && (ok || !row.hasLog) }
    | _ => none
  | .endPoll => match s.phase with
    | .reading status [] => if status.isTerminal then
        some { s with tail := { s.tail with out := s.tail.out ++ [.done] }, phase := .ended }
      else some { s with phase := .top }
    | _ => none

/-- A stream starts at any time. -/
def machine : Machine LogStream Label where
  init s := s.tail = ⟨fun _ => 0, []⟩ ∧ s.phase = .top ∧ s.atRow = s.logs
  step := step

/-- What was sent of a step's log. -/
def sentText (out : List SseEvent) (idx : Int) : List Char := out.flatMap fun
  | .log i text => if i = idx then text else []
  | .done => []

/-! ## What is sent is there -/

theorem sentText_append (out out' : List SseEvent) (idx : Int) :
    sentText (out ++ out') idx = sentText out idx ++ sentText out' idx := List.flatMap_append

/-- The offset of a step is the room of what was sent of its log, which the log starts with. -/
def SentInv (tail : Tail) (text : Int → List Char) : Prop :=
  ∀ idx, sentText tail.out idx <+: text idx ∧
    tail.sent idx = total Char.utf8Size (sentText tail.out idx)

theorem sentText_log (out : List SseEvent) (idx idx' : Int) (text : List Char) :
    sentText (out ++ [.log idx text]) idx' =
      sentText out idx' ++ if idx = idx' then text else [] := by
  rw [sentText_append]
  congr 1
  exact List.append_nil _

/-- Nothing is sent of a text that is no longer than what was sent. -/
theorem poll_of_le {tail : Tail} {idx : Int} {read : List Char}
    (h : total Char.utf8Size read ≤ tail.sent idx) : tail.poll idx read = tail := by
  unfold Tail.poll
  simp only
  rw [if_neg (Nat.not_lt.mpr h)]

/-- **A read of the whole log sends the rest of it.** -/
theorem poll_of_read {tail : Tail} {idx : Int} {rest : List Char} (hne : rest ≠ [])
    (h : tail.sent idx = total Char.utf8Size (sentText tail.out idx)) :
    tail.poll idx (sentText tail.out idx ++ rest) =
      { sent := Function.update tail.sent idx
          (total Char.utf8Size (sentText tail.out idx ++ rest))
        out := tail.out ++ [.log idx rest] } := by
  have hpos := total_pos Char.utf8Size_pos hne
  have hlt : tail.sent idx < total Char.utf8Size (sentText tail.out idx ++ rest) := by
    rw [h, total_append]
    omega
  have hdrop := dropTo_append Char.utf8Size_pos (sentText tail.out idx) rest
  have hcut : ceil Char.utf8Size (sentText tail.out idx ++ rest)
      (total Char.utf8Size (sentText tail.out idx ++ rest))
      (min (tail.sent idx) (total Char.utf8Size (sentText tail.out idx ++ rest))) =
        total Char.utf8Size (sentText tail.out idx) := by
    rw [Nat.min_eq_left (Nat.le_of_lt hlt), h]
    exact ceil_of_between hdrop _
  unfold Tail.poll
  simp only
  rw [if_pos hlt, hcut, hdrop, Option.getD_some, if_neg (by simpa using hne)]

/-- **What a poll of one step does**: the log that was read is sent to its end, and nothing of the
others. -/
theorem sentInv_poll {tail : Tail} {text : Int → List Char} (h : SentInv tail text) (idx : Int)
    {read : List Char} (hread : read = text idx ∨ read = []) :
    SentInv (tail.poll idx read) text ∧
      (∀ idx', sentText tail.out idx' <+: sentText (tail.poll idx read).out idx') ∧
      (read = text idx → sentText (tail.poll idx read).out idx = text idx) := by
  obtain ⟨⟨rest, hrest⟩, hsent⟩ := h idx
  by_cases hle : total Char.utf8Size read ≤ tail.sent idx
  · rw [poll_of_le hle]
    refine ⟨h, fun _ => List.prefix_rfl, fun hall => ?_⟩
    rw [hall, ← hrest, total_append, hsent] at hle
    have hnil : rest = [] := by
      by_contra hne
      have hpos := total_pos Char.utf8Size_pos hne
      omega
    rw [← hrest, hnil, List.append_nil]
  · have hall : read = text idx := by
      rcases hread with hall | rfl
      · exact hall
      · exact absurd (Nat.zero_le _) hle
    have hne : rest ≠ [] := by
      rintro rfl
      rw [hall, ← hrest, List.append_nil, hsent] at hle
      exact hle (Nat.le_refl _)
    have hlog : sentText (tail.out ++ [.log idx rest]) idx = text idx := by
      rw [sentText_log, if_pos rfl, hrest]
    rw [hall, ← hrest, poll_of_read hne hsent, hrest]
    refine ⟨fun idx' => ?_, fun idx' => ?_, fun _ => hlog⟩
    · by_cases heq : idx' = idx
      · rw [heq, hlog]
        exact ⟨List.prefix_rfl, Function.update_self _ _ _⟩
      · have hother : sentText (tail.out ++ [.log idx rest]) idx' = sentText tail.out idx' := by
          rw [sentText_log, if_neg (Ne.symm heq), List.append_nil]
        rw [hother]
        exact ⟨(h idx').1, (Function.update_of_ne heq _ _).trans (h idx').2⟩
    · rw [sentText_log]
      exact List.prefix_append _ _

theorem done_of_poll {tail : Tail} {idx : Int} {read : List Char}
    (h : SseEvent.done ∈ (tail.poll idx read).out) : SseEvent.done ∈ tail.out := by
  unfold Tail.poll at h
  simp only at h
  split_ifs at h
  · exact h
  · exact (List.mem_append.mp h).resolve_right (by simp)
  · exact h

theorem SentInv.mono {tail : Tail} {logs logs' : Logs} (h : SentInv tail logs.text)
    (hle : logs.Le logs') : SentInv tail logs'.text := fun idx =>
  ⟨(h idx).1.trans (hle.text idx), (h idx).2⟩

/-! ## A poll that ends the stream -/

/-- All that was in the log of a step when the job's row was read is sent, or is about to be. -/
def Caught (s : LogStream) (rest : List StepLog) : Prop := ∀ idx, s.atRow.Recorded idx →
  ⟨idx, true⟩ ∈ rest ∨ s.atRow.text idx <+: sentText s.tail.out idx

theorem Caught.mono {s s' : LogStream} {rest rest' : List StepLog} (h : Caught s rest)
    (hrow : s'.atRow = s.atRow) (hrest : ∀ r ∈ rest, r ∈ rest')
    (hsent : ∀ idx, sentText s.tail.out idx <+: sentText s'.tail.out idx) : Caught s' rest' := by
  intro idx hidx
  rw [hrow] at hidx ⊢
  exact (h idx hidx).imp (hrest _) fun hpre => hpre.trans (hsent idx)

/-- What holds at each place of the loop. -/
structure Inv (s : LogStream) : Prop where
  sent : SentInv s.tail s.logs.text
  grown : s.atRow.Le s.logs
  listed : ∀ status, s.phase = .listed status → s.atRow.status = some status
  reading : ∀ status rest, s.phase = .reading status rest →
    s.atRow.status = some status ∧ (s.clean = true → Caught s rest)
  ended : SseEvent.done ∈ s.tail.out → s.phase = .ended ∧
    (∃ status, s.atRow.status = some status ∧ status.isTerminal = true) ∧
    (s.clean = true → Caught s [])

theorem inv_init {s : LogStream} (h : machine.init s) : Inv s := by
  obtain ⟨htail, hphase, hrow⟩ := h
  exact
    { sent := by
        intro idx
        rw [htail]
        exact ⟨List.nil_prefix, rfl⟩
      grown := by
        rw [hrow]
        exact Logs.Le.refl _
      listed := by
        intro status hlisted
        rw [hphase] at hlisted
        cases hlisted
      reading := by
        intro status rest hreading
        rw [hphase] at hreading
        cases hreading
      ended := by
        intro hdone
        rw [htail] at hdone
        cases hdone }

/-- Before the end, nothing was said to be done. -/
theorem Inv.not_done {s : LogStream} (h : Inv s) (hphase : s.phase ≠ .ended) :
    SseEvent.done ∉ s.tail.out := fun hdone => hphase (h.ended hdone).1

theorem inv_change {s : LogStream} (h : Inv s) (c : Change) :
    Inv { s with logs := s.logs.change c } where
  sent := h.sent.mono (s.logs.le_change c)
  grown := h.grown.trans (s.logs.le_change c)
  listed := h.listed
  reading := h.reading
  ended := h.ended

theorem inv_readJob {s s' : LogStream} {ok : Bool} (h : Inv s) (hs : step s (.readJob ok) = some s') :
    Inv s' := by
  unfold step at hs
  cases hphase : s.phase with
  | top =>
    have hdone := h.not_done (by rw [hphase]; exact Phase.noConfusion)
    simp only [hphase] at hs
    split at hs
    · rename_i status _ hstatus
      cases hs
      exact
        { sent := h.sent
          grown := Logs.Le.refl _
          listed := by
            rintro _ ⟨⟩
            exact hstatus
          reading := by
            rintro _ _ ⟨⟩
          ended := fun hmem => absurd hmem hdone }
    · cases hs
      exact
        { sent := h.sent
          grown := h.grown
          listed := by
            rintro _ ⟨⟩
          reading := by
            rintro _ _ ⟨⟩
          ended := fun hmem => absurd hmem hdone }
  | listed status => simp [hphase] at hs
  | reading status rest => simp [hphase] at hs
  | ended => simp [hphase] at hs

theorem inv_readSteps {s s' : LogStream} {ok : Bool} (h : Inv s)
    (hs : step s (.readSteps ok) = some s') : Inv s' := by
  unfold step at hs
  cases hphase : s.phase with
  | listed status =>
    have hdone := h.not_done (by rw [hphase]; exact Phase.noConfusion)
    simp only [hphase] at hs
    cases hs
    exact
      { sent := h.sent
        grown := h.grown
        listed := by
          rintro _ ⟨⟩
        reading := by
          rintro _ _ ⟨⟩
          refine ⟨h.listed status hphase, fun hok idx hidx => Or.inl ?_⟩
          have hok : ok = true := hok
          rw [hok, if_pos rfl]
          exact h.grown.recorded idx hidx
        ended := fun hmem => absurd hmem hdone }
  | top => simp [hphase] at hs
  | reading status rest => simp [hphase] at hs
  | ended => simp [hphase] at hs

theorem inv_readLog {s s' : LogStream} {ok : Bool} (h : Inv s)
    (hs : step s (.readLog ok) = some s') : Inv s' := by
  unfold step at hs
  cases hphase : s.phase with
  | reading status rest =>
    have hdone := h.not_done (by rw [hphase]; exact Phase.noConfusion)
    obtain ⟨hstatus, hcaught⟩ := h.reading status rest hphase
    simp only [hphase] at hs
    cases rest with
    | nil => cases hs
    | cons row rest =>
      cases hs
      have hread : (if row.hasLog && ok then s.logs.text row.idx else []) = s.logs.text row.idx ∨
          (if row.hasLog && ok then s.logs.text row.idx else []) = [] := by
        split_ifs
        · exact Or.inl rfl
        · exact Or.inr rfl
      obtain ⟨hsent, hmono, hall⟩ := sentInv_poll h.sent row.idx hread
      exact
        { sent := hsent
          grown := h.grown
          listed := by
            rintro _ ⟨⟩
          reading := by
            rintro _ _ ⟨⟩
            refine ⟨hstatus, fun hclean idx hidx => ?_⟩
            obtain ⟨hclean, hok⟩ := Bool.and_eq_true_iff.mp hclean
            rcases hcaught hclean idx hidx with hmem | hpre
            · rcases List.mem_cons.mp hmem with rfl | hmem
              · -- the log of this step was read now
                right
                have hok : ok = true := by simpa using hok
                rw [hall (by rw [hok]; rfl)]
                exact h.grown.text idx
              · exact Or.inl hmem
            · exact Or.inr (hpre.trans (hmono idx))
          ended := fun hmem => absurd (done_of_poll hmem) hdone }
  | top => simp [hphase] at hs
  | listed status => simp [hphase] at hs
  | ended => simp [hphase] at hs

theorem sentText_done (out : List SseEvent) (idx : Int) :
    sentText (out ++ [.done]) idx = sentText out idx := by
  rw [sentText_append]
  exact List.append_nil _

theorem inv_endPoll {s s' : LogStream} (h : Inv s) (hs : step s .endPoll = some s') : Inv s' := by
  unfold step at hs
  cases hphase : s.phase with
  | reading status rest =>
    have hdone := h.not_done (by rw [hphase]; exact Phase.noConfusion)
    obtain ⟨hstatus, hcaught⟩ := h.reading status rest hphase
    simp only [hphase] at hs
    cases rest with
    | cons row rest => cases hs
    | nil =>
      simp only at hs
      split_ifs at hs with hterminal
      · cases hs
        exact
          { sent := by
              intro idx
              rw [sentText_done]
              exact h.sent idx
            grown := h.grown
            listed := by
              rintro _ ⟨⟩
            reading := by
              rintro _ _ ⟨⟩
            ended := by
              refine fun _ => ⟨rfl, ⟨status, hstatus, hterminal⟩, fun hclean => ?_⟩
              refine (hcaught hclean).mono rfl (fun _ hr => hr) fun idx => ?_
              exact ⟨[], by rw [List.append_nil, sentText_done]⟩ }
      · cases hs
        exact
          { sent := h.sent
            grown := h.grown
            listed := by
              rintro _ ⟨⟩
            reading := by
              rintro _ _ ⟨⟩
            ended := fun hmem => absurd hmem hdone }
  | top => simp [hphase] at hs
  | listed status => simp [hphase] at hs
  | ended => simp [hphase] at hs

theorem inv_step {s s' : LogStream} (a : Label) (h : Inv s) (hs : step s a = some s') : Inv s' := by
  cases a with
  | change c =>
    cases hs
    exact inv_change h c
  | readJob ok => exact inv_readJob h hs
  | readSteps ok => exact inv_readSteps h hs
  | readLog ok => exact inv_readLog h hs
  | endPoll => exact inv_endPoll h hs

/-- **In every reachable state the invariant holds.** -/
theorem inv_reachable {s : LogStream} (h : machine.Reachable Machine.anyStep s) : Inv s :=
  h.inv Inv (fun _ => inv_init) fun _ a _ _ hI _ hs => inv_step a hI hs

/-- **What is sent of a log is a prefix of it**, in every run; **and when the stream says that it is
done**, the job's row was terminal, and all that was in a log whose path its row had by then has been
sent, if the reads of the last poll went well. -/
theorem sent_and_done {s : LogStream} (h : machine.Reachable Machine.anyStep s) :
    (∀ idx, sentText s.tail.out idx <+: s.logs.text idx) ∧
      (SseEvent.done ∈ s.tail.out →
        (∃ status, s.atRow.status = some status ∧ status.isTerminal = true) ∧
        (s.clean = true → ∀ idx, s.atRow.Recorded idx →
          s.atRow.text idx <+: sentText s.tail.out idx)) := by
  have hinv := inv_reachable h
  refine ⟨fun idx => (hinv.sent idx).1, fun hdone => ?_⟩
  obtain ⟨-, hterminal, hcaught⟩ := hinv.ended hdone
  refine ⟨hterminal, fun hclean idx hidx => ?_⟩
  exact (hcaught hclean idx hidx).resolve_left List.not_mem_nil

section Cancelled

private def quiet : Logs := ⟨some .running, [], fun _ => []⟩

private def start : LogStream := ⟨quiet, ⟨fun _ => 0, []⟩, .top, quiet, true⟩

/-- A run that is cancelled while its step prints: the step prints a second line after the row of
the job was read. -/
private def cancelledRun : List Label := [.change (.addStep 0), .change (.write 0 ['a']),
  .change (.record 0), .change (.setStatus .cancelled), .readJob true, .change (.write 0 ['b']),
  .readSteps true, .readLog true, .endPoll]

/-- A job that has ended, and a poll that cannot read its steps. -/
private def unreadRun : List Label := [.change (.addStep 0), .change (.write 0 ['a']),
  .change (.record 0), .change (.setStatus .success), .readJob true, .readSteps false, .endPoll]

/-- The end of a run from the start, and what it has sent of the first step's log. -/
private theorem ends (labels : List Label) (out : List SseEvent) (clean : Bool)
    (h : ((machine.run start labels).map fun s =>
      (s.tail.out, s.clean, s.atRow.steps, s.atRow.text 0)) =
        some (out, clean, [⟨0, true⟩], ['a'])) :
    ∃ s, machine.Reachable Machine.anyStep s ∧ s.tail.out = out ∧ s.clean = clean ∧
      s.atRow.Recorded 0 ∧ s.atRow.text 0 = ['a'] := by
  obtain ⟨s, hs, heq⟩ := Option.map_eq_some_iff.mp h
  simp only [Prod.mk.injEq] at heq
  obtain ⟨hout, hclean, hsteps, htext⟩ := heq
  refine ⟨s, Machine.reachable_of_run ⟨rfl, rfl, rfl⟩ hs, hout, hclean, ?_, htext⟩
  rw [Logs.Recorded, hsteps]
  exact List.mem_cons_self

/-- The stream of a cancelled run has sent what was there. -/
theorem cancelled_stream_done : ∃ s, machine.Reachable Machine.anyStep s ∧
    SseEvent.done ∈ s.tail.out ∧ s.atRow.text 0 = ['a'] ∧
      s.atRow.text 0 <+: sentText s.tail.out 0 := by
  obtain ⟨s, hs, hout, hclean, hrecorded, htext⟩ := ends cancelledRun
    [.log 0 ['a', 'b'], .done] true (by decide)
  have hdone : SseEvent.done ∈ s.tail.out := by
    rw [hout]
    exact List.mem_cons_of_mem _ List.mem_cons_self
  exact ⟨s, hs, hdone, htext,
    ((sent_and_done hs).2 hdone).2 hclean 0 hrecorded⟩

/-- When the stream is done it may have sent more than was there when the row of the job was read,
and less if a read failed. -/
theorem done_not_exact :
    (¬ ∀ s, machine.Reachable Machine.anyStep s → SseEvent.done ∈ s.tail.out → s.clean = true →
      ∀ idx, s.atRow.Recorded idx → sentText s.tail.out idx = s.atRow.text idx) ∧
    ¬ ∀ s, machine.Reachable Machine.anyStep s → SseEvent.done ∈ s.tail.out →
      ∀ idx, s.atRow.Recorded idx → s.atRow.text idx <+: sentText s.tail.out idx := by
  constructor
  · intro hall
    obtain ⟨s, hs, hout, hclean, hrecorded, htext⟩ := ends cancelledRun
      [.log 0 ['a', 'b'], .done] true (by decide)
    have hdone : SseEvent.done ∈ s.tail.out := by
      rw [hout]
      exact List.mem_cons_of_mem _ List.mem_cons_self
    have heq := hall s hs hdone hclean 0 hrecorded
    rw [hout, htext] at heq
    exact absurd heq (by decide)
  · intro hall
    obtain ⟨s, hs, hout, -, hrecorded, htext⟩ := ends unreadRun [.done] false (by decide)
    have hdone : SseEvent.done ∈ s.tail.out := by
      rw [hout]
      exact List.mem_cons_self
    have hpre := hall s hs hdone 0 hrecorded
    rw [hout, htext] at hpre
    exact absurd hpre (by decide)

end Cancelled

end LogStream

end HeyoCi
