import HeyoCi.Ids.Mint
import HeyoCi.Lib.Actors
import HeyoCi.Lib.Machine
import HeyoCi.Store.Logs
import HeyoCi.Store.Sweeps

/-!
# Old logs are discarded, young ones are not

Jobs append to the logs of their steps while the sweepers of any number of instances remove old ones. What
a job appends is handed to a thread that writes it, and its row is updated at once: the text gets into the
file later, or not at all.

* `LogSite`, `Appending`, `Flight`, `Sweeper`: the rows, the files, and who is at work on them;
* `LogSite.step`, `retentionMachine`: one call or one file at a time, in any order;
* `LogSite.Inv`: what each of them keeps;
* **`young_logs_kept`**: what is within the retention only grows, and what a row counts is in its file, on
  its way there or lost.
-/

namespace HeyoCi

/-! ## Jobs and sweepers at work -/

/-- The id of a run is a name as it is. -/
theorem sanitizeComponent_newId (ms seq : Nat) : sanitizeComponent (newId ms seq) = newId ms seq := by
  have hdash : isComponentChar '-' = false := by decide
  have hdigits : ∀ {width n : Nat}, ∀ c ∈ hexChars width n, isComponentChar c = true := by
    intro width n c hc
    have hall : (['0', '1', '2', '3', '4', '5', '6', '7', '8', '9', 'a', 'b', 'c', 'd', 'e',
      'f'].all isComponentChar) = true := by decide
    exact List.all_eq_true.mp hall c (of_decide_eq_true (isHexDigit_hexChars hc))
  have hne : ∀ {width n : Nat}, hexChars width n ≠ [] := by
    intro width n hnil
    exact Nat.toDigits_ne_nil (List.append_eq_nil_iff.mp hnil).2
  have hwords : words (newId ms seq) = [hexChars 12 ms, hexChars 8 (seq % 2 ^ 32)] := by
    rw [words, newId, String.toList_ofList, Runs.runs_append_cons hdash, Runs.runs_of_all hdigits,
      Runs.runs_of_all hdigits, if_neg hne, if_neg hne]
    rfl
  rw [sanitizeComponent_eq, hwords, if_neg (List.cons_ne_nil _ _),
    List.intercalate_cons_of_ne_nil (List.cons_ne_nil _ _), List.intercalate_singleton, newId,
    List.append_assoc]
  rfl

/-- The names that `log_path` joins. -/
def logNames (runId jobKey : String) (idx : Int) (stepId : String) : List String :=
  [sanitizeComponent runId, sanitizeComponent jobKey, logName idx stepId]

inductive AppendStage where
  | opening
  /-- The file is open, and it may have been unlinked since. -/
  | opened (linked : Bool)
  /-- The text has been handed over. -/
  | written
  deriving Repr, DecidableEq

/-- A call of `append_log`. -/
structure Appending where
  stepId : String
  path : List String
  text : Bytes
  stage : AppendStage
  deriving Repr, DecidableEq

/-- A text that was handed to a thread for a file: what of it has not got there. -/
structure Flight where
  path : List String
  left : Bytes
  linked : Bool
  deriving Repr, DecidableEq

/-- A pass of the sweeper: what is left of its list, and whether the first one's directory is gone. -/
structure Sweeper where
  cutoff : Int
  todo : List String
  removed : Bool
  deriving Repr, DecidableEq

/-- The clock, the rows, the files with the paths there were any at, and who is at work; what was lost of
the texts for a path is read by nothing. -/
structure LogSite where
  now : Int
  db : LogDb
  disk : List String → Option Bytes
  paths : List (List String)
  appends : List Appending
  flights : List Flight
  lost : List (List String × Nat)
  sweepers : List Sweeper

/-- The run of a step, and where the log of the step is. -/
def LogDb.place (db : LogDb) (t : LoggedStep) : Option (String × List String) :=
  (db.jobs.find? fun j => j.id = t.jobId).map fun j => (j.runId, logNames j.runId j.key t.idx t.id)

/-- The directory of a run. -/
def runLogDir (runId : String) : List String := [sanitizeComponent runId]

/-- One thing that happens to the logs. -/
inductive LogLabel where
  | tick (secs : Nat)
  | createRun (ms seq : Nat)
  | createJob (job : LoggedJob)
  | createStep (id jobId : String) (idx : Int)
  | append (stepId : String) (text : Bytes)
  | openFile (i : Nat)
  | write (i : Nat)
  | record (i : Nat)
  /-- The file cannot be opened, an error is reported, the row is not updated, or the process ends. -/
  | leave (i : Nat)
  /-- So many more bytes of a text get into its file. -/
  | land (j n : Nat)
  /-- The others do not: nobody asks for the error, or the process ends. -/
  | lose (j : Nat)
  | list (listed : List (String × Int))
  | unlink (i : Nat) (path : List String)
  | removed (i : Nat)
  | forget (i : Nat)
  /-- A directory cannot be removed, or the rows of its run are not updated. -/
  | skip (i : Nat)
  | stop (i : Nat)

namespace LogDb

variable (db : LogDb)

def addRun (id : String) (created : Int) (h : id ∉ db.runs.map Prod.fst) : LogDb :=
  { db with
    runs := db.runs ++ [(id, created)]
    runKeys := by
      rw [List.map_append, List.nodup_append]
      exact ⟨db.runKeys, List.nodup_singleton _, fun a ha b hb heq => by
        obtain rfl : b = id := List.mem_singleton.mp hb
        exact h (heq ▸ ha)⟩ }

def addJob (job : LoggedJob) (h : job.id ∉ db.jobs.map (·.id)) : LogDb :=
  { db with
    jobs := db.jobs ++ [job]
    jobKeys := by
      rw [List.map_append, List.nodup_append]
      exact ⟨db.jobKeys, List.nodup_singleton _, fun a ha b hb heq => by
        obtain rfl : b = job.id := List.mem_singleton.mp hb
        exact h (heq ▸ ha)⟩ }

def addStep (step : LoggedStep) (h : step.id ∉ db.steps.map (·.id)) : LogDb :=
  { db with
    steps := db.steps ++ [step]
    stepKeys := by
      rw [List.map_append, List.nodup_append]
      exact ⟨db.stepKeys, List.nodup_singleton _, fun a ha b hb heq => by
        obtain rfl : b = step.id := List.mem_singleton.mp hb
        exact h (heq ▸ ha)⟩ }

/-- The row that `append_log` updates. -/
def recordStep (a : Appending) (t : LoggedStep) : LoggedStep :=
  if t.id = a.stepId then { t with logPath := some a.path, logBytes := t.logBytes + a.text.length } else t

theorem recordStep_keeps (a : Appending) (t : LoggedStep) : (recordStep a t).id = t.id ∧
    (recordStep a t).jobId = t.jobId ∧ (recordStep a t).idx = t.idx := by
  unfold recordStep
  split_ifs <;> exact ⟨rfl, rfl, rfl⟩

/-- The last part of `append_log`. -/
def record (a : Appending) : LogDb :=
  { db with
    steps := db.steps.map (recordStep a)
    stepKeys := by
      have hids : (db.steps.map (recordStep a)).map (·.id) = db.steps.map (·.id) := by
        rw [List.map_map]
        exact List.map_congr_left fun t _ => (recordStep_keeps a t).1
      rw [hids]
      exact db.stepKeys }

end LogDb

namespace LogSite

/-- Somebody who has the file open writes where nobody reads it. -/
def unlinked (path : List String) (a : Appending) : Appending :=
  if a.path = path ∧ a.stage = .opened true then { a with stage := .opened false } else a

def Flight.unlinked (path : List String) (f : Flight) : Flight :=
  if f.path = path then { f with linked := false } else f

variable (retention : Int) (limit : Nat)

def step (s : LogSite) : LogLabel → Option LogSite
  | .tick secs => some { s with now := s.now + secs }
  | .createRun ms seq => if h : newId ms seq ∉ s.db.runs.map Prod.fst then
      some { s with db := s.db.addRun (newId ms seq) s.now h } else none
  | .createJob job => if h : job.id ∉ s.db.jobs.map (·.id) then
      if job.runId ∈ s.db.runs.map Prod.fst then some { s with db := s.db.addJob job h } else none
    else none
  | .createStep id jobId idx => if h : id ∉ s.db.steps.map (·.id) then
      if jobId ∈ s.db.jobs.map (·.id) then
        some { s with db := s.db.addStep ⟨id, jobId, idx, none, 0⟩ h } else none
    else none
  | .append stepId text => (s.db.steps.find? fun t => t.id = stepId).bind fun t =>
      (s.db.place t).map fun (_, path) =>
        { s with appends := s.appends ++ [⟨stepId, path, text, .opening⟩] }
  | .openFile i => s.appends[i]?.bind fun a => if a.stage = .opening then
      some { s with
        disk := fun p => if p = a.path then some ((s.disk p).getD []) else s.disk p
        paths := a.path :: s.paths
        appends := Actors.put s.appends i (some { a with stage := .opened true }) }
    else none
  -- the file is dropped without a flush: of a long text all but the end is waited for, of a short one
  -- nothing, and the order of the steps leaves that open
  | .write i => s.appends[i]?.bind fun a => match a.stage with
    | .opened linked => some { s with
        appends := Actors.put s.appends i (some { a with stage := .written })
        flights := s.flights ++ [⟨a.path, a.text, linked⟩] }
    | _ => none
  | .record i => s.appends[i]?.bind fun a => if a.stage = .written then
      some { s with db := s.db.record a, appends := Actors.put s.appends i none } else none
  | .leave i => s.appends[i]?.map fun _ => { s with appends := Actors.put s.appends i none }
  | .land j n => s.flights[j]?.map fun f => { s with
      disk := fun p => if f.linked = true ∧ p = f.path then
        some ((s.disk p).getD [] ++ f.left.take n) else s.disk p
      flights := Actors.put s.flights j (some { f with left := f.left.drop n }) }
  | .lose j => s.flights[j]?.map fun f => { s with
      flights := Actors.put s.flights j none
      lost := (f.path, f.left.length) :: s.lost }
  | .list listed => if s.db.Listing (s.now - retention) limit listed then
      some { s with sweepers := s.sweepers ++ [⟨s.now - retention, listed.map Prod.fst, false⟩] }
    else none
  | .unlink i path => s.sweepers[i]?.bind fun w => match w.todo with
    | id :: _ => if w.removed = false ∧ runLogDir id <+: path then some { s with
        disk := fun p => if p = path then none else s.disk p
        appends := s.appends.map (unlinked path)
        flights := s.flights.map (Flight.unlinked path) } else none
    | [] => none
  | .removed i => s.sweepers[i]?.bind fun w => match w.todo with
    | id :: _ => if w.removed = false ∧ ∀ p ∈ s.paths, runLogDir id <+: p → s.disk p = none then
        some { s with sweepers := Actors.put s.sweepers i (some { w with removed := true }) }
      else none
    | [] => none
  | .forget i => s.sweepers[i]?.bind fun w => match w.todo with
    | id :: todo => if w.removed = true then some { s with
        db := s.db.forget id
        sweepers := Actors.put s.sweepers i (some { w with todo := todo, removed := false }) }
      else none
    | [] => none
  | .skip i => s.sweepers[i]?.bind fun w => match w.todo with
    | _ :: todo =>
      some { s with sweepers := Actors.put s.sweepers i (some { w with todo := todo, removed := false }) }
    | [] => none
  | .stop i => s.sweepers[i]?.map fun _ => { s with sweepers := Actors.put s.sweepers i none }

end LogSite

/-- The logs of all jobs, from an empty database and an empty directory on. -/
def retentionMachine (retention : Int) (limit : Nat) : Machine LogSite LogLabel where
  init s := s.db.runs = [] ∧ s.db.jobs = [] ∧ s.db.steps = [] ∧ (∀ p, s.disk p = none) ∧
    s.paths = [] ∧ s.appends = [] ∧ s.flights = [] ∧ s.lost = [] ∧ s.sweepers = []
  step := LogSite.step retention limit

/-! ## What everybody keeps -/

namespace LogSite

/-- A run is within the retention. -/
def Young (retention : Int) (s : LogSite) (runId : String) : Prop :=
  ∃ created, (runId, created) ∈ s.db.runs ∧ s.now - retention ≤ created

/-- What a call of `append_log` has handed over and not yet recorded for a step. -/
def Appending.pending (stepId : String) (a : Appending) : Nat :=
  if a.stepId = stepId ∧ a.stage = .written then a.text.length else 0

def pending (appends : List Appending) (stepId : String) : Nat :=
  (appends.map (Appending.pending stepId)).sum

/-- What of a text is on its way to a file. -/
def Flight.flying (path : List String) (f : Flight) : Nat := if f.path = path then f.left.length else 0

def flying (flights : List Flight) (path : List String) : Nat :=
  (flights.map (Flight.flying path)).sum

/-- What has not got into a file and never will. -/
def lostOf (lost : List (List String × Nat)) (path : List String) : Nat :=
  (lost.map fun p => if p.1 = path then p.2 else 0).sum

/-- All that was handed over for a file, as far as the file has not been removed. -/
def held (s : LogSite) (path : List String) : Nat :=
  ((s.disk path).getD []).length + flying s.flights path + lostOf s.lost path

structure Inv (retention : Int) (s : LogSite) : Prop where
  minted : ∀ r ∈ s.db.runs, ∃ ms seq, r.1 = newId ms seq
  jobs : ∀ j ∈ s.db.jobs, j.runId ∈ s.db.runs.map Prod.fst
  home : ∀ t ∈ s.db.steps, ∃ run path, s.db.place t = some (run, path) ∧ run ∈ s.db.runs.map Prod.fst
  placed : ∀ a ∈ s.appends, ∃ t ∈ s.db.steps, t.id = a.stepId ∧
    ∃ run, s.db.place t = some (run, a.path) ∧
      (s.Young retention run → ∀ linked, a.stage = .opened linked → linked = true)
  aloft : ∀ f ∈ s.flights, ∃ run ∈ s.db.runs.map Prod.fst, runLogDir run <+: f.path ∧
    (s.Young retention run → f.linked = true)
  old : ∀ w ∈ s.sweepers, ∀ id ∈ w.todo, id ∈ s.db.runs.map Prod.fst ∧ ¬ s.Young retention id
  counted : ∀ t ∈ s.db.steps, ∀ run path, s.db.place t = some (run, path) → s.Young retention run →
    (∀ q, t.logPath = some q → q = path) ∧
      t.logBytes + pending s.appends t.id ≤ s.held path

/-- From one state to another, what is within the retention only grew. -/
structure Grown (retention : Int) (s s' : LogSite) : Prop where
  /-- A run is not younger than it was. -/
  younger : ∀ run ∈ s.db.runs.map Prod.fst, s'.Young retention run → s.Young retention run
  runs : s.db.runs ⊆ s'.db.runs
  files : ∀ run ∈ s.db.runs.map Prod.fst, s'.Young retention run → ∀ q, runLogDir run <+: q →
    ∀ x, s.disk q = some x → ∃ y, s'.disk q = some (x ++ y)
  rows : ∀ t ∈ s.db.steps, ∀ run path, s.db.place t = some (run, path) →
    ∃ t' ∈ s'.db.steps, t'.id = t.id ∧ s'.db.place t' = some (run, path) ∧
      (s'.Young retention run → t.logBytes ≤ t'.logBytes ∧ (t.logPath.isSome → t'.logPath.isSome))

section Steps

variable {retention : Int} {limit : Nat} {s s' : LogSite} {i : Nat}

theorem Grown.refl (s : LogSite) : Grown retention s s where
  younger := fun _ _ h => h
  runs := List.Subset.refl _
  files := fun _ _ _ _ _ x h => ⟨[], h.trans (by rw [List.append_nil])⟩
  rows := fun t ht _ _ hplace => ⟨t, ht, rfl, hplace, fun _ => ⟨Nat.le_refl _, fun h => h⟩⟩

theorem Grown.trans {s'' : LogSite} (hI : s.Inv retention) (h : Grown retention s s')
    (h' : Grown retention s' s'') : Grown retention s s'' := by
  have hids : ∀ run ∈ s.db.runs.map Prod.fst, run ∈ s'.db.runs.map Prod.fst :=
    fun run hrun => List.map_subset Prod.fst h.runs hrun
  refine ⟨fun run hrun hy => h.younger run hrun (h'.younger run (hids run hrun) hy),
    List.Subset.trans h.runs h'.runs, fun run hrun hy q hq x hx => ?_, fun t ht run path hplace => ?_⟩
  · obtain ⟨y, hy'⟩ := h.files run hrun (h'.younger run (hids run hrun) hy) q hq x hx
    obtain ⟨z, hz⟩ := h'.files run (hids run hrun) hy q hq _ hy'
    exact ⟨y ++ z, hz.trans (by rw [List.append_assoc])⟩
  · obtain ⟨t₁, ht₁, hid₁, hplace₁, hrow₁⟩ := h.rows t ht run path hplace
    obtain ⟨t₂, ht₂, hid₂, hplace₂, hrow₂⟩ := h'.rows t₁ ht₁ run path hplace₁
    refine ⟨t₂, ht₂, hid₂.trans hid₁, hplace₂, fun hy => ?_⟩
    obtain ⟨run', path', hplace', hrun⟩ := hI.home t ht
    rw [hplace'] at hplace
    cases hplace
    obtain ⟨hle, hsome⟩ := hrow₁ (h'.younger _ (hids _ hrun) hy)
    obtain ⟨hle', hsome'⟩ := hrow₂ hy
    exact ⟨hle.trans hle', fun hp => hsome' (hsome hp)⟩

/-- Two runs have two directories. -/
theorem run_of_dir (hI : s.Inv retention) {run run' : String} (hrun : run ∈ s.db.runs.map Prod.fst)
    (hrun' : run' ∈ s.db.runs.map Prod.fst) {q : List String} (hq : runLogDir run <+: q)
    (hq' : runLogDir run' <+: q) : run = run' := by
  have hname : ∀ id ∈ s.db.runs.map Prod.fst, sanitizeComponent id = id := by
    intro id hid
    obtain ⟨r, hr, rfl⟩ := List.mem_map.mp hid
    obtain ⟨ms, seq, heq⟩ := hI.minted r hr
    rw [heq, sanitizeComponent_newId]
  have hdirs := (List.prefix_of_prefix_length_le hq hq' (Nat.le_refl _)).eq_of_length rfl
  rw [runLogDir, runLogDir, List.cons.injEq, hname run hrun, hname run' hrun'] at hdirs
  exact hdirs.1

/-- The log of a step is in the directory of its run. -/
theorem dir_of_place {db : LogDb} {t : LoggedStep} {run : String} {path : List String}
    (h : db.place t = some (run, path)) : runLogDir run <+: path := by
  obtain ⟨j, -, heq⟩ := Option.map_eq_some_iff.mp h
  cases heq
  exact ⟨_, rfl⟩

/-- The step that is appended to. -/
theorem step_of_append (hI : s.Inv retention) {a : Appending} (ha : a ∈ s.appends) {t : LoggedStep}
    (ht : t ∈ s.db.steps) (hid : t.id = a.stepId) {run : String} {path : List String}
    (hplace : s.db.place t = some (run, path)) : path = a.path ∧
      (s.Young retention run → ∀ linked, a.stage = .opened linked → linked = true) := by
  obtain ⟨t', ht', hid', run', hplace', hlinked⟩ := hI.placed a ha
  obtain rfl := List.inj_on_of_nodup_map s.db.stepKeys ht ht' (hid.trans hid'.symm)
  rw [hplace] at hplace'
  cases hplace'
  exact ⟨rfl, hlinked⟩

theorem pending_put {appends : List Appending} {a : Appending} (hi : appends[i]? = some a)
    (o : Option Appending) (stepId : String) :
    pending (Actors.put appends i o) stepId + Appending.pending stepId a =
      pending appends stepId + (o.elim 0 (Appending.pending stepId)) :=
  Actors.sum_put (Appending.pending stepId) hi o

theorem flying_put {flights : List Flight} {f : Flight} (hi : flights[i]? = some f)
    (o : Option Flight) (path : List String) :
    flying (Actors.put flights i o) path + Flight.flying path f =
      flying flights path + (o.elim 0 (Flight.flying path)) :=
  Actors.sum_put (Flight.flying path) hi o

/-- What is moved, and what is left alone. -/
abbrev Good (retention : Int) (s s' : LogSite) : Prop := s'.Inv retention ∧ Grown retention s s'

/-- A sweeper that goes on, comes or goes. -/
theorem good_sweepers (hI : s.Inv retention) {l : List Sweeper}
    (hl : ∀ w ∈ l, ∀ id ∈ w.todo, id ∈ s.db.runs.map Prod.fst ∧ ¬ s.Young retention id) :
    Good retention s { s with sweepers := l } := by
  have hsame : Grown retention s s := Grown.refl s
  exact ⟨⟨hI.minted, hI.jobs, hI.home, hI.placed, hI.aloft, hl, hI.counted⟩, fun _ _ h => h,
    List.Subset.refl _, hsame.files, hsame.rows⟩

/-- An append that goes on: files grow by what is counted from then on. -/
theorem good_files (hI : s.Inv retention) {disk : List String → Option Bytes}
    {paths : List (List String)} {l : List Appending} {flights : List Flight}
    {lost : List (List String × Nat)}
    (hfiles : ∀ q x, s.disk q = some x → ∃ y, disk q = some (x ++ y))
    (hl : ∀ a ∈ l, (∃ b ∈ s.appends, a.stepId = b.stepId ∧ a.path = b.path ∧
      (a.stage = b.stage ∨ ∀ linked, a.stage = .opened linked → linked = true)) ∨
        a.stage = .opening ∧ ∃ t ∈ s.db.steps, t.id = a.stepId ∧
          ∃ run, s.db.place t = some (run, a.path))
    (haloft : ∀ f ∈ flights, (∃ g ∈ s.flights, f.path = g.path ∧ f.linked = g.linked) ∨
      ∃ a ∈ s.appends, f.path = a.path ∧ a.stage = .opened f.linked)
    (hcounted : ∀ t ∈ s.db.steps, ∀ run path, s.db.place t = some (run, path) →
      run ∈ s.db.runs.map Prod.fst → s.Young retention run → pending l t.id + s.held path ≤
        pending s.appends t.id + (((disk path).getD []).length + flying flights path + lostOf lost path)) :
    Good retention s { s with
      disk := disk, paths := paths, appends := l, flights := flights, lost := lost } := by
  refine ⟨⟨hI.minted, hI.jobs, hI.home, fun a ha => ?_, fun f hf => ?_, hI.old,
      fun t ht run path hplace hy => ?_⟩,
    fun _ _ h => h, List.Subset.refl _, fun _ _ _ q _ => hfiles q,
    fun t ht _ _ hplace => ⟨t, ht, rfl, hplace, fun _ => ⟨Nat.le_refl _, fun h => h⟩⟩⟩
  · rcases hl a ha with ⟨b, hb, hid, hpath, hstage⟩ | ⟨hstage, t, ht, htid, run, hplace⟩
    · obtain ⟨t, ht, htid, run, hplace, hlinked⟩ := hI.placed b hb
      refine ⟨t, ht, htid.trans hid.symm, run, hpath ▸ hplace, fun hy linked hopen => ?_⟩
      rcases hstage with hsame | hnew
      · exact hlinked hy linked (hsame ▸ hopen)
      · exact hnew linked hopen
    · refine ⟨t, ht, htid, run, hplace, fun _ linked hopen => ?_⟩
      rw [hstage] at hopen
      cases hopen
  · rcases haloft f hf with ⟨g, hg, hpath, hlinked⟩ | ⟨a, ha, hpath, hstage⟩
    · obtain ⟨run, hrun, hdir, hyoung⟩ := hI.aloft g hg
      exact ⟨run, hrun, hpath ▸ hdir, fun hy => hlinked.trans (hyoung hy)⟩
    · obtain ⟨t, ht, -, run, hplace, hlinked⟩ := hI.placed a ha
      obtain ⟨run', path', hplace', hrun⟩ := hI.home t ht
      rw [hplace] at hplace'
      cases hplace'
      exact ⟨run, hrun, hpath ▸ dir_of_place hplace, fun hy => hlinked hy _ hstage⟩
  · obtain ⟨hpath, hle⟩ := hI.counted t ht run path hplace hy
    obtain ⟨run', path', hplace', hrun⟩ := hI.home t ht
    rw [hplace] at hplace'
    cases hplace'
    have hmore := hcounted t ht run path hplace hrun hy
    refine ⟨hpath, ?_⟩
    rw [held]
    dsimp only
    omega

/-- A row that is updated in place. -/
theorem place_map {db db' : LogDb} {f : LoggedStep → LoggedStep} (hjobs : db'.jobs = db.jobs)
    {t : LoggedStep} (hf : (f t).id = t.id ∧ (f t).jobId = t.jobId ∧ (f t).idx = t.idx) :
    db'.place (f t) = db.place t := by
  rw [LogDb.place, LogDb.place, hjobs, hf.1, hf.2.1, hf.2.2]

/-- Rows of steps that are updated: those of young runs get no less. -/
theorem good_rows (hI : s.Inv retention) {db : LogDb} {f : LoggedStep → LoggedStep}
    (hruns : db.runs = s.db.runs) (hjobs : db.jobs = s.db.jobs) (hsteps : db.steps = s.db.steps.map f)
    (hf : ∀ t, (f t).id = t.id ∧ (f t).jobId = t.jobId ∧ (f t).idx = t.idx)
    {appends : List Appending} {sweepers : List Sweeper} (happends : appends ⊆ s.appends)
    (hsweepers : ∀ w ∈ sweepers, ∀ id ∈ w.todo, ∃ v ∈ s.sweepers, id ∈ v.todo)
    (hyoung : ∀ t ∈ s.db.steps, ∀ run path, s.db.place t = some (run, path) →
      s.Young retention run → t.logBytes ≤ (f t).logBytes ∧ (t.logPath.isSome → (f t).logPath.isSome) ∧
        (∀ q, (f t).logPath = some q → t.logPath = some q ∨ q = path) ∧
        (f t).logBytes + pending appends t.id ≤ t.logBytes + pending s.appends t.id) :
    Good retention s { s with db := db, appends := appends, sweepers := sweepers } := by
  have hy : ∀ run, LogSite.Young retention
      { s with db := db, appends := appends, sweepers := sweepers } run → s.Young retention run := by
    rintro run ⟨created, hrun, hle⟩
    exact ⟨created, hruns ▸ hrun, hle⟩
  have hmem : ∀ {t'}, t' ∈ db.steps → ∃ t ∈ s.db.steps, t' = f t := by
    intro t' ht'
    rw [hsteps] at ht'
    obtain ⟨t, ht, rfl⟩ := List.mem_map.mp ht'
    exact ⟨t, ht, rfl⟩
  have hplace : ∀ t, db.place (f t) = s.db.place t := fun t => place_map hjobs (hf t)
  have hnew : ∀ {t}, t ∈ s.db.steps → f t ∈ db.steps := fun ht => hsteps ▸ List.mem_map_of_mem ht
  refine ⟨⟨fun r hr => hI.minted r (hruns ▸ hr), fun j hj => ?_, fun t' ht' => ?_, fun a ha => ?_,
    fun f hf => ?_, fun w hw id hid => ?_, fun t' ht' run path hp hy' => ?_⟩, fun run _ => hy run,
    fun r hr => hruns.symm ▸ hr,
    fun _ _ _ q _ x hx => ⟨[], hx.trans (by rw [List.append_nil])⟩, fun t ht run path hp => ?_⟩
  · exact hruns.symm ▸ hI.jobs j (hjobs ▸ hj)
  · obtain ⟨t, ht, rfl⟩ := hmem ht'
    obtain ⟨run, path, hp, hrun⟩ := hI.home t ht
    exact ⟨run, path, (hplace t).trans hp, hruns.symm ▸ hrun⟩
  · obtain ⟨t, ht, hid, run, hp, hlinked⟩ := hI.placed a (happends ha)
    exact ⟨f t, hnew ht, (hf t).1.trans hid, run, (hplace t).trans hp, fun h => hlinked (hy run h)⟩
  · obtain ⟨run, hrun, hdir, hlinked⟩ := hI.aloft f hf
    exact ⟨run, hruns.symm ▸ hrun, hdir, fun h => hlinked (hy run h)⟩
  · obtain ⟨v, hv, hid'⟩ := hsweepers w hw id hid
    obtain ⟨hrun, hold⟩ := hI.old v hv id hid'
    exact ⟨hruns.symm ▸ hrun, fun h => hold (hy id h)⟩
  · obtain ⟨t, ht, rfl⟩ := hmem ht'
    rw [hplace] at hp
    obtain ⟨-, -, hq, hle⟩ := hyoung t ht run path hp (hy run hy')
    obtain ⟨hpath, hcount⟩ := hI.counted t ht run path hp (hy run hy')
    refine ⟨fun q hlog => (hq q hlog).elim (hpath q) fun h => h, ?_⟩
    rw [(hf t).1]
    exact hle.trans hcount
  · refine ⟨f t, hnew ht, (hf t).1, (hplace t).trans hp, fun hy' => ?_⟩
    obtain ⟨hle, hsome, -⟩ := hyoung t ht run path hp (hy run hy')
    exact ⟨hle, hsome⟩

/-- Rows that are added: no old step gets another place, and no run gets younger. -/
theorem good_added (hI : s.Inv retention) {now : Int} {db : LogDb} (hnow : s.now ≤ now)
    (hruns : ∀ r ∈ db.runs, r ∈ s.db.runs ∨ r.1 ∉ s.db.runs.map Prod.fst ∧ ∃ ms seq, r.1 = newId ms seq)
    (hruns' : s.db.runs ⊆ db.runs) (hjobs : ∀ j ∈ db.jobs, j.runId ∈ db.runs.map Prod.fst)
    (hplace : ∀ t run path, s.db.place t = some (run, path) → db.place t = some (run, path))
    (hsteps : s.db.steps ⊆ db.steps)
    (hsteps' : ∀ t ∈ db.steps, t ∈ s.db.steps ∨ t.id ∉ s.db.steps.map (·.id) ∧ t.logPath = none ∧
      t.logBytes = 0 ∧ ∃ run path, db.place t = some (run, path) ∧ run ∈ db.runs.map Prod.fst) :
    Good retention s { s with now := now, db := db } := by
  have hy : ∀ run ∈ s.db.runs.map Prod.fst, LogSite.Young retention { s with now := now, db := db } run →
      s.Young retention run := by
    rintro run hmem ⟨created, hrun, hle⟩
    rcases hruns _ hrun with hold | ⟨hnot, -⟩
    · exact ⟨created, hold, le_trans (by dsimp only; omega) hle⟩
    · exact absurd hmem hnot
  refine ⟨⟨fun r hr => ?_, hjobs, fun t ht => ?_, fun a ha => ?_, fun f hf => ?_, fun w hw id hid => ?_,
    fun t ht run path hp hyoung => ?_⟩, hy, hruns', fun _ _ _ _ _ x hx =>
      ⟨[], hx.trans (by rw [List.append_nil])⟩, fun t ht run path hp =>
      ⟨t, hsteps ht, rfl, hplace t run path hp, fun _ => ⟨Nat.le_refl _, fun h => h⟩⟩⟩
  · rcases hruns r hr with hold | ⟨-, hnew⟩
    · exact hI.minted r hold
    · exact hnew
  · rcases hsteps' t ht with hold | ⟨-, -, -, hnew⟩
    · obtain ⟨run, path, hp, hrun⟩ := hI.home t hold
      exact ⟨run, path, hplace t run path hp, List.map_subset Prod.fst hruns' hrun⟩
    · exact hnew
  · obtain ⟨t, ht, hid, run, hp, hlinked⟩ := hI.placed a ha
    obtain ⟨run', path', hp', hrun⟩ := hI.home t ht
    rw [hp] at hp'
    cases hp'
    exact ⟨t, hsteps ht, hid, run, hplace t run _ hp, fun h => hlinked (hy run hrun h)⟩
  · obtain ⟨run, hrun, hdir, hlinked⟩ := hI.aloft f hf
    exact ⟨run, List.map_subset Prod.fst hruns' hrun, hdir, fun h => hlinked (hy run hrun h)⟩
  · obtain ⟨hrun, hold⟩ := hI.old w hw id hid
    exact ⟨List.map_subset Prod.fst hruns' hrun, fun h => hold (hy id hrun h)⟩
  · rcases hsteps' t ht with hold | ⟨hnot, hnone, hzero, -⟩
    · obtain ⟨run', path', hp', hrun⟩ := hI.home t hold
      rw [hplace t run' path' hp'] at hp
      cases hp
      exact hI.counted t hold run path hp' (hy run hrun hyoung)
    · -- nobody appends to a step that was not there
      have hpending : pending s.appends t.id = 0 := by
        rw [pending, List.sum_eq_zero_iff_forall_eq_nat]
        intro n hn
        obtain ⟨a, ha, rfl⟩ := List.mem_map.mp hn
        obtain ⟨u, hu, hid, -⟩ := hI.placed a ha
        rw [Appending.pending, if_neg]
        rintro ⟨heq, -⟩
        exact hnot (List.mem_map.mpr ⟨u, hu, hid.trans heq⟩)
      rw [hnone, hzero]
      refine ⟨fun q hq => absurd hq.symm (Option.some_ne_none q), ?_⟩
      dsimp only
      omega

theorem place_addJob {db : LogDb} {job : LoggedJob} (h : job.id ∉ db.jobs.map (·.id)) {t : LoggedStep}
    {run : String} {path : List String} (hp : db.place t = some (run, path)) :
    (db.addJob job h).place t = some (run, path) := by
  obtain ⟨j, hj, heq⟩ := Option.map_eq_some_iff.mp hp
  have hfind : ((db.jobs ++ [job]).find? fun j => j.id = t.jobId) = some j := by
    rw [List.find?_append, hj]
    rfl
  exact (congrArg (Option.map _) hfind).trans (congrArg some heq)

theorem place_of_job {db : LogDb} {t : LoggedStep} (h : t.jobId ∈ db.jobs.map (·.id)) :
    ∃ j ∈ db.jobs, db.place t = some (j.runId, logNames j.runId j.key t.idx t.id) := by
  cases hfind : db.jobs.find? fun j => j.id = t.jobId with
  | none =>
    obtain ⟨j, hj, hid⟩ := List.mem_map.mp h
    have hno := List.find?_eq_none.mp hfind j hj
    rw [hid] at hno
    simp at hno
  | some j => exact ⟨j, List.mem_of_find?_eq_some hfind, by rw [LogDb.place, hfind]; rfl⟩

theorem good_createRun (hI : s.Inv retention) {ms seq : Nat} (h : newId ms seq ∉ s.db.runs.map Prod.fst) :
    Good retention s { s with db := s.db.addRun (newId ms seq) s.now h } := by
  refine good_added hI (Int.le_refl _) (fun r hr => ?_) (fun r hr => List.mem_append_left _ hr)
    (fun j hj => ?_) (fun _ _ _ hp => hp) (List.Subset.refl _) fun t ht => Or.inl ht
  · rcases List.mem_append.mp hr with hr | hr
    · exact Or.inl hr
    · obtain rfl := List.mem_singleton.mp hr
      exact Or.inr ⟨h, ms, seq, rfl⟩
  · exact List.map_subset Prod.fst (fun r hr => List.mem_append_left _ hr) (hI.jobs j hj)

theorem good_createJob (hI : s.Inv retention) {job : LoggedJob} (h : job.id ∉ s.db.jobs.map (·.id))
    (hrun : job.runId ∈ s.db.runs.map Prod.fst) :
    Good retention s { s with db := s.db.addJob job h } := by
  refine good_added hI (Int.le_refl _) (fun r hr => Or.inl hr) (List.Subset.refl _) (fun j hj => ?_)
    (fun t run path hp => place_addJob h hp) (List.Subset.refl _) fun t ht => Or.inl ht
  rcases List.mem_append.mp hj with hj | hj
  · exact hI.jobs j hj
  · obtain rfl := List.mem_singleton.mp hj
    exact hrun

theorem good_createStep (hI : s.Inv retention) {id jobId : String} {idx : Int}
    (h : id ∉ s.db.steps.map (·.id)) (hjob : jobId ∈ s.db.jobs.map (·.id)) :
    Good retention s { s with db := s.db.addStep ⟨id, jobId, idx, none, 0⟩ h } := by
  refine good_added hI (Int.le_refl _) (fun r hr => Or.inl hr) (List.Subset.refl _) hI.jobs
    (fun _ _ _ hp => hp) (fun t ht => List.mem_append_left _ ht) fun t ht => ?_
  rcases List.mem_append.mp ht with ht | ht
  · exact Or.inl ht
  · obtain rfl := List.mem_singleton.mp ht
    obtain ⟨j, hj, hp⟩ := place_of_job (t := ⟨id, jobId, idx, none, 0⟩) hjob
    exact Or.inr ⟨h, rfl, rfl, j.runId, _, hp, hI.jobs j hj⟩

/-- One append less, and the files as they are. -/
theorem good_leave (hI : s.Inv retention) {a : Appending} (hi : s.appends[i]? = some a) :
    Good retention s { s with appends := Actors.put s.appends i none } := by
  refine good_files hI (fun q x hx => ⟨[], hx.trans (by rw [List.append_nil])⟩) (fun b hb => ?_)
    (fun f hf => Or.inl ⟨f, hf, rfl, rfl⟩) fun t _ run path _ _ _ => ?_
  · exact Or.inl ⟨b, Actors.mem_put_none hb, rfl, rfl, Or.inl rfl⟩
  · have hsum := pending_put hi none t.id
    rw [Option.elim_none] at hsum
    rw [held]
    omega

theorem good_open (hI : s.Inv retention) {a : Appending} (hi : s.appends[i]? = some a)
    (hstage : a.stage = .opening) : Good retention s { s with
      disk := fun p => if p = a.path then some ((s.disk p).getD []) else s.disk p
      paths := a.path :: s.paths
      appends := Actors.put s.appends i (some { a with stage := .opened true }) } := by
  have hsame : ∀ p, ((if p = a.path then some ((s.disk p).getD []) else s.disk p).getD []) =
      (s.disk p).getD [] := by
    intro p
    split_ifs <;> rfl
  refine good_files hI (fun q x hx => ⟨[], ?_⟩) (fun b hb => ?_)
    (fun f hf => Or.inl ⟨f, hf, rfl, rfl⟩) fun t _ run path _ _ _ => ?_
  · rw [List.append_nil, hx]
    split_ifs <;> rfl
  · rcases Actors.mem_put hb with hb | hb
    · exact Or.inl ⟨b, hb, rfl, rfl, Or.inl rfl⟩
    · obtain rfl := (Option.some.inj hb).symm
      refine Or.inl ⟨a, List.mem_of_getElem? hi, rfl, rfl, Or.inr fun linked hopen => ?_⟩
      cases hopen
      rfl
  · have hsum := pending_put hi (some { a with stage := .opened true }) t.id
    simp only [Option.elim_some, Appending.pending, hstage, reduceCtorEq, and_false, if_false] at hsum
    rw [hsame, held]
    omega

/-- A text is handed over: it is counted from now on, and it is on its way. -/
theorem good_write (hI : s.Inv retention) {a : Appending} (hi : s.appends[i]? = some a) {linked : Bool}
    (hstage : a.stage = .opened linked) : Good retention s { s with
      appends := Actors.put s.appends i (some { a with stage := .written })
      flights := s.flights ++ [⟨a.path, a.text, linked⟩] } := by
  refine good_files hI (fun q x hx => ⟨[], hx.trans (by rw [List.append_nil])⟩) (fun b hb => ?_)
    (fun f hf => ?_) fun t ht run path hp _ _ => ?_
  · rcases Actors.mem_put hb with hb | hb
    · exact Or.inl ⟨b, hb, rfl, rfl, Or.inl rfl⟩
    · obtain rfl := (Option.some.inj hb).symm
      exact Or.inl ⟨a, List.mem_of_getElem? hi, rfl, rfl, Or.inr nofun⟩
  · rcases List.mem_append.mp hf with hf | hf
    · exact Or.inl ⟨f, hf, rfl, rfl⟩
    · obtain rfl := List.mem_singleton.mp hf
      exact Or.inr ⟨a, List.mem_of_getElem? hi, rfl, hstage⟩
  · have hsum := pending_put hi (some { a with stage := .written }) t.id
    simp only [Option.elim_some, Appending.pending, hstage, reduceCtorEq, and_false, if_false,
      and_true] at hsum
    have hflying : flying (s.flights ++ [⟨a.path, a.text, linked⟩]) path =
        flying s.flights path + if a.path = path then a.text.length else 0 := by
      rw [flying, List.map_append, List.sum_append]
      rfl
    rw [hflying, held]
    by_cases hid : a.stepId = t.id
    · obtain ⟨rfl, -⟩ := step_of_append hI (List.mem_of_getElem? hi) ht hid.symm hp
      rw [if_pos hid] at hsum
      rw [if_pos rfl]
      omega
    · rw [if_neg hid] at hsum
      omega

/-- Some of a text gets into its file, if that is there. -/
theorem good_land (hI : s.Inv retention) {f : Flight} (hi : s.flights[i]? = some f) (n : Nat) :
    Good retention s { s with
      disk := fun p => if f.linked = true ∧ p = f.path then
        some ((s.disk p).getD [] ++ f.left.take n) else s.disk p
      flights := Actors.put s.flights i (some { f with left := f.left.drop n }) } := by
  have hf := List.mem_of_getElem? hi
  refine good_files hI (fun q x hx => ?_) (fun b hb => Or.inl ⟨b, hb, rfl, rfl, Or.inl rfl⟩)
    (fun g hg => ?_) fun t ht run path hp hrun hy => ?_
  · split_ifs
    · exact ⟨f.left.take n, by rw [hx]; rfl⟩
    · exact ⟨[], hx.trans (by rw [List.append_nil])⟩
  · rcases Actors.mem_put hg with hg | hg
    · exact Or.inl ⟨g, hg, rfl, rfl⟩
    · obtain rfl := (Option.some.inj hg).symm
      exact Or.inl ⟨f, hf, rfl, rfl⟩
  · have hsum := flying_put hi (some { f with left := f.left.drop n }) path
    rw [Option.elim_some, Flight.flying, Flight.flying, List.length_drop] at hsum
    rw [held]
    by_cases hpath : f.path = path
    · -- the step is within the retention, so its file is there
      obtain ⟨run', hrun', hdir, hlinked⟩ := hI.aloft f hf
      obtain rfl := run_of_dir hI hrun hrun' (dir_of_place hp) (hpath ▸ hdir)
      rw [if_pos hpath, if_pos hpath] at hsum
      rw [if_pos ⟨hlinked hy, hpath.symm⟩, Option.getD_some, List.length_append, List.length_take]
      omega
    · rw [if_neg hpath, if_neg hpath] at hsum
      rw [if_neg fun h => hpath h.2.symm]
      omega

theorem good_lose (hI : s.Inv retention) {f : Flight} (hi : s.flights[i]? = some f) :
    Good retention s { s with
      flights := Actors.put s.flights i none
      lost := (f.path, f.left.length) :: s.lost } := by
  refine good_files hI (fun q x hx => ⟨[], hx.trans (by rw [List.append_nil])⟩)
    (fun b hb => Or.inl ⟨b, hb, rfl, rfl, Or.inl rfl⟩)
    (fun g hg => Or.inl ⟨g, Actors.mem_put_none hg, rfl, rfl⟩) fun t _ run path _ _ _ => ?_
  have hsum := flying_put hi none path
  rw [Option.elim_none, Flight.flying] at hsum
  have hlost : lostOf ((f.path, f.left.length) :: s.lost) path =
      (if f.path = path then f.left.length else 0) + lostOf s.lost path := by
    rw [lostOf, List.map_cons, List.sum_cons]
    rfl
  rw [held, hlost]
  omega

theorem good_record (hI : s.Inv retention) {a : Appending} (hi : s.appends[i]? = some a)
    (hstage : a.stage = .written) :
    Good retention s { s with db := s.db.record a, appends := Actors.put s.appends i none } := by
  refine @good_rows _ _ hI (s.db.record a) _ rfl rfl rfl (LogDb.recordStep_keeps a) _ _
    (fun b hb => Actors.mem_put_none hb) (fun w hw id hid => ⟨w, hw, hid⟩) fun t ht run path hp _ => ?_
  have hsum := pending_put hi none t.id
  rw [Option.elim_none, Appending.pending, hstage] at hsum
  rw [LogDb.recordStep]
  by_cases hid : t.id = a.stepId
  · obtain ⟨rfl, -⟩ := step_of_append hI (List.mem_of_getElem? hi) ht hid hp
    rw [if_pos ⟨hid.symm, rfl⟩] at hsum
    rw [if_pos hid]
    refine ⟨Nat.le_add_right _ _, fun _ => rfl, fun q hq => Or.inr (Option.some.inj hq).symm, ?_⟩
    dsimp only
    omega
  · rw [if_neg hid]
    exact ⟨Nat.le_refl _, fun h => h, fun q hq => Or.inl hq, by omega⟩

theorem inRun_of_place {db : LogDb} {t : LoggedStep} {run : String} {path : List String}
    (h : db.place t = some (run, path)) : db.inRun run t = true := by
  obtain ⟨j, hj, heq⟩ := Option.map_eq_some_iff.mp h
  cases heq
  rw [LogDb.inRun, List.any_eq_true]
  exact ⟨j, List.mem_of_find?_eq_some hj, by simpa using List.find?_some hj⟩

/-- What is on the list of a sweeper that goes on was on it before. -/
theorem todo_put {w u : Sweeper} (hi : s.sweepers[i]? = some w) (hu : u.todo ⊆ w.todo) :
    ∀ v ∈ Actors.put s.sweepers i (some u), ∀ id ∈ v.todo, ∃ x ∈ s.sweepers, id ∈ x.todo := by
  intro v hv id hid
  rcases Actors.mem_put hv with hv | hv
  · exact ⟨v, hv, hid⟩
  · obtain rfl := Option.some.inj hv
    exact ⟨w, List.mem_of_getElem? hi, hu hid⟩

theorem good_forget (hI : s.Inv retention) {w : Sweeper} (hi : s.sweepers[i]? = some w) {id : String}
    {todo : List String} (htodo : w.todo = id :: todo) : Good retention s { s with
      db := s.db.forget id
      sweepers := Actors.put s.sweepers i (some { w with todo := todo, removed := false }) } := by
  have hold := (hI.old w (List.mem_of_getElem? hi) id (htodo ▸ List.mem_cons_self)).2
  refine @good_rows _ _ hI (s.db.forget id) _ rfl rfl rfl (s.db.forgetStep_keeps id) _ _ (List.Subset.refl _)
    (todo_put hi (htodo ▸ List.subset_cons_self id todo)) fun t _ run path hp hy => ?_
  -- a run on the list is not within the retention
  have hsame : s.db.forgetStep id t = t := by
    rw [LogDb.forgetStep, if_neg]
    rw [Bool.and_eq_true, not_and]
    intro _ hin
    exact hold (LogDb.inRun_unique hin (inRun_of_place hp) ▸ hy)
  rw [hsame]
  exact ⟨Nat.le_refl _, fun h => h, fun q hq => Or.inl hq, Nat.le_refl _⟩

theorem unlinked_keeps (path : List String) (a : Appending) : (unlinked path a).stepId = a.stepId ∧
    (unlinked path a).path = a.path ∧
    ∀ stepId, Appending.pending stepId (unlinked path a) = Appending.pending stepId a := by
  unfold unlinked
  split_ifs with h
  · refine ⟨rfl, rfl, fun stepId => ?_⟩
    simp only [Appending.pending, h.2, reduceCtorEq, and_false]
  · exact ⟨rfl, rfl, fun _ => rfl⟩

theorem good_unlink (hI : s.Inv retention) {w : Sweeper} (hw : w ∈ s.sweepers) {id : String}
    (hid : id ∈ w.todo) {path : List String} (hpath : runLogDir id <+: path) : Good retention s { s with
      disk := fun p => if p = path then none else s.disk p
      appends := s.appends.map (unlinked path)
      flights := s.flights.map (Flight.unlinked path) } := by
  obtain ⟨hrun, hold⟩ := hI.old w hw id hid
  have hne : ∀ run ∈ s.db.runs.map Prod.fst, s.Young retention run → ∀ q, runLogDir run <+: q →
      q ≠ path := by
    rintro run hmem hy q hq rfl
    exact hold (run_of_dir hI hmem hrun hq hpath ▸ hy)
  have hrunOf : ∀ {t run path}, t ∈ s.db.steps → s.db.place t = some (run, path) →
      run ∈ s.db.runs.map Prod.fst := by
    intro t run path ht hp
    obtain ⟨run', path', hp', hmem⟩ := hI.home t ht
    rw [hp] at hp'
    cases hp'
    exact hmem
  have hpending : ∀ stepId, pending (s.appends.map (unlinked path)) stepId =
      pending s.appends stepId := by
    intro stepId
    rw [pending, pending, List.map_map]
    exact congrArg List.sum (List.map_congr_left fun a _ => (unlinked_keeps path a).2.2 stepId)
  have hflying : ∀ q, flying (s.flights.map (Flight.unlinked path)) q = flying s.flights q := by
    intro q
    rw [flying, flying, List.map_map]
    refine congrArg List.sum (List.map_congr_left fun f _ => ?_)
    rw [Function.comp_apply, Flight.unlinked]
    split_ifs <;> rfl
  have hsame : Grown retention s s := Grown.refl s
  refine ⟨⟨hI.minted, hI.jobs, hI.home, fun a ha => ?_, fun f hf => ?_, hI.old,
      fun t ht run q hp hy => ?_⟩,
    fun _ _ h => h, List.Subset.refl _, fun run hmem hy q hq x hx => ⟨[], ?_⟩, hsame.rows⟩
  · obtain ⟨b, hb, rfl⟩ := List.mem_map.mp ha
    obtain ⟨t, ht, hstep, run, hp, hlinked⟩ := hI.placed b hb
    obtain ⟨hkept, hkept', -⟩ := unlinked_keeps path b
    refine ⟨t, ht, hstep.trans hkept.symm, run, hkept'.symm ▸ hp, fun hy linked hopen => ?_⟩
    have hother : ¬ (b.path = path ∧ b.stage = .opened true) := fun h =>
      hne run (hrunOf ht hp) hy b.path (dir_of_place hp) h.1
    rw [unlinked, if_neg hother] at hopen
    exact hlinked hy linked hopen
  · obtain ⟨g, hg, rfl⟩ := List.mem_map.mp hf
    obtain ⟨run, hmem, hdir, hlinked⟩ := hI.aloft g hg
    rw [Flight.unlinked]
    split_ifs with hgone
    · exact ⟨run, hmem, hdir, fun hy => absurd hgone (hne run hmem hy g.path hdir)⟩
    · exact ⟨run, hmem, hdir, hlinked⟩
  · obtain ⟨hlog, hle⟩ := hI.counted t ht run q hp hy
    refine ⟨hlog, ?_⟩
    rw [held]
    dsimp only
    rw [hpending, hflying, if_neg (hne run (hrunOf ht hp) hy q (dir_of_place hp))]
    exact hle
  · rw [List.append_nil]
    exact (if_neg (hne run hmem hy q hq)).trans hx

/-- A listing has old runs only. -/
theorem good_list (hI : s.Inv retention) {listed : List (String × Int)}
    (hl : s.db.Listing (s.now - retention) limit listed) : Good retention s { s with
      sweepers := s.sweepers ++ [⟨s.now - retention, listed.map Prod.fst, false⟩] } := by
  refine good_sweepers hI fun w hw id hid => ?_
  rcases List.mem_append.mp hw with hw | hw
  · exact hI.old w hw id hid
  · obtain rfl := List.mem_singleton.mp hw
    obtain ⟨r, hr, rfl⟩ := List.mem_map.mp hid
    obtain ⟨hrun, hcand⟩ := List.mem_filter.mp (hl.subset hr)
    rw [Bool.and_eq_true, decide_eq_true_eq] at hcand
    refine ⟨List.mem_map_of_mem hrun, ?_⟩
    rintro ⟨created, hrun', hle⟩
    have hsame := List.inj_on_of_nodup_map s.db.runKeys hrun hrun' rfl
    rw [hsame] at hcand
    exact absurd hcand.1 (not_lt.mpr hle)

theorem good_append (hI : s.Inv retention) {t : LoggedStep} (ht : t ∈ s.db.steps) {run : String}
    {path : List String} (hp : s.db.place t = some (run, path)) (text : Bytes) :
    Good retention s { s with appends := s.appends ++ [⟨t.id, path, text, .opening⟩] } := by
  refine good_files hI (fun q x hx => ⟨[], hx.trans (by rw [List.append_nil])⟩) (fun a ha => ?_)
    (fun f hf => Or.inl ⟨f, hf, rfl, rfl⟩) fun u _ _ _ _ _ _ => ?_
  · rcases List.mem_append.mp ha with ha | ha
    · exact Or.inl ⟨a, ha, rfl, rfl, Or.inl rfl⟩
    · obtain rfl := List.mem_singleton.mp ha
      exact Or.inr ⟨rfl, t, ht, rfl, run, hp⟩
  · rw [pending, pending, List.map_append, List.sum_append]
    simp [Appending.pending, held]

/-- **Whatever happens, what is within the retention only grows.** -/
theorem good_step (hI : s.Inv retention) {a : LogLabel} (hstep : step retention limit s a = some s') :
    Good retention s s' := by
  cases a with
  | tick secs =>
    cases hstep
    exact good_added hI (by omega) (fun r hr => Or.inl hr) (List.Subset.refl _) hI.jobs
      (fun _ _ _ hp => hp) (List.Subset.refl _) fun t ht => Or.inl ht
  | createRun ms seq =>
    change (if h : newId ms seq ∉ s.db.runs.map Prod.fst then some _ else none) = some s' at hstep
    split_ifs at hstep with h
    cases hstep
    exact good_createRun hI h
  | createJob job =>
    change (if h : job.id ∉ s.db.jobs.map (·.id) then
      if job.runId ∈ s.db.runs.map Prod.fst then some _ else none else none) = some s' at hstep
    split_ifs at hstep with h hrun
    cases hstep
    exact good_createJob hI h hrun
  | createStep id jobId idx =>
    change (if h : id ∉ s.db.steps.map (·.id) then
      if jobId ∈ s.db.jobs.map (·.id) then some _ else none else none) = some s' at hstep
    split_ifs at hstep with h hjob
    cases hstep
    exact good_createStep hI h hjob
  | append stepId text =>
    obtain ⟨t, ht, hrest⟩ := Option.bind_eq_some_iff.mp hstep
    obtain ⟨⟨run, path⟩, hp, rfl⟩ := Option.map_eq_some_iff.mp hrest
    have hid : t.id = stepId := by simpa using List.find?_some ht
    have hgood := good_append hI (List.mem_of_find?_eq_some ht) hp text
    rwa [hid] at hgood
  | openFile i =>
    obtain ⟨a, hi, hrest⟩ := Option.bind_eq_some_iff.mp hstep
    split_ifs at hrest with hstage
    cases hrest
    exact good_open hI hi hstage
  | write i =>
    obtain ⟨a, hi, hrest⟩ := Option.bind_eq_some_iff.mp hstep
    split at hrest
    · rename_i linked hstage
      cases hrest
      exact good_write hI hi hstage
    · cases hrest
  | record i =>
    obtain ⟨a, hi, hrest⟩ := Option.bind_eq_some_iff.mp hstep
    split_ifs at hrest with hstage
    cases hrest
    exact good_record hI hi hstage
  | leave i =>
    obtain ⟨a, hi, rfl⟩ := Option.map_eq_some_iff.mp hstep
    exact good_leave hI hi
  | land j n =>
    obtain ⟨f, hi, rfl⟩ := Option.map_eq_some_iff.mp hstep
    exact good_land hI hi n
  | lose j =>
    obtain ⟨f, hi, rfl⟩ := Option.map_eq_some_iff.mp hstep
    exact good_lose hI hi
  | list listed =>
    change (if s.db.Listing (s.now - retention) limit listed then some _ else none) = some s' at hstep
    split_ifs at hstep with hl
    cases hstep
    exact good_list hI hl
  | unlink i path =>
    obtain ⟨w, hi, hrest⟩ := Option.bind_eq_some_iff.mp hstep
    split at hrest
    · rename_i id todo htodo
      split_ifs at hrest with h
      cases hrest
      exact good_unlink hI (List.mem_of_getElem? hi) (htodo ▸ List.mem_cons_self) h.2
    · cases hrest
  | removed i =>
    obtain ⟨w, hi, hrest⟩ := Option.bind_eq_some_iff.mp hstep
    split at hrest
    · split_ifs at hrest
      cases hrest
      refine good_sweepers hI fun v hv id hid => ?_
      have hsame : ({ w with removed := true } : Sweeper).todo ⊆ w.todo := List.Subset.refl _
      obtain ⟨x, hx, hmem⟩ := todo_put hi hsame v hv id hid
      exact hI.old x hx id hmem
    · cases hrest
  | forget i =>
    obtain ⟨w, hi, hrest⟩ := Option.bind_eq_some_iff.mp hstep
    split at hrest
    · rename_i id todo htodo
      split_ifs at hrest
      cases hrest
      exact good_forget hI hi htodo
    · cases hrest
  | skip i =>
    obtain ⟨w, hi, hrest⟩ := Option.bind_eq_some_iff.mp hstep
    split at hrest
    · rename_i id todo htodo
      cases hrest
      refine good_sweepers hI fun v hv id' hid => ?_
      obtain ⟨x, hx, hmem⟩ := todo_put hi (htodo ▸ List.subset_cons_self id todo) v hv id' hid
      exact hI.old x hx id' hmem
    · cases hrest
  | stop i =>
    obtain ⟨w, hi, rfl⟩ := Option.map_eq_some_iff.mp hstep
    exact good_sweepers hI fun v hv id hid => hI.old v (Actors.mem_put_none hv) id hid

end Steps

theorem inv_init {retention : Int} {limit : Nat} {s : LogSite}
    (h : (retentionMachine retention limit).init s) : s.Inv retention := by
  obtain ⟨hruns, hjobs, hsteps, -, -, happends, hflights, -, hsweepers⟩ := h
  refine ⟨?_, ?_, ?_, ?_, ?_, ?_, ?_⟩
  all_goals simp [hruns, hjobs, hsteps, happends, hflights, hsweepers]

end LogSite

/-- **What is within the retention only grows.** Whatever jobs append and whatever any number of sweepers
list, remove and forget, and wherever any of them ends: while a run is within the retention, each of its
files has what it had at its beginning, each of its steps has its row with no less than it counted, the
row points to the step's own file, and what it counts is in this file, on its way there or lost. -/
theorem young_logs_kept (retention : Int) (limit : Nat) {s s' : LogSite}
    (hs : (retentionMachine retention limit).Reachable Machine.anyStep s)
    (hlater : (retentionMachine retention limit).Reach Machine.anyStep s s') {run : String}
    (hrun : run ∈ s.db.runs.map Prod.fst) (hyoung : s'.Young retention run) :
    (∀ q, runLogDir run <+: q → ∀ x, s.disk q = some x → ∃ y, s'.disk q = some (x ++ y)) ∧
    ∀ t ∈ s.db.steps, ∀ path, s.db.place t = some (run, path) →
      ∃ t' ∈ s'.db.steps, t'.id = t.id ∧ t.logBytes ≤ t'.logBytes ∧
        (t.logPath.isSome → t'.logPath = some path) ∧ (∀ q, t'.logPath = some q → q = path) ∧
        t'.logBytes ≤ ((s'.disk path).getD []).length + LogSite.flying s'.flights path +
          LogSite.lostOf s'.lost path := by
  have hI : s.Inv retention := hs.inv (LogSite.Inv retention) (fun _ h => LogSite.inv_init h)
    fun _ _ _ _ hI _ hstep => (LogSite.good_step hI hstep).1
  have hgrown : s'.Inv retention ∧ LogSite.Grown retention s s' := by
    refine Machine.Reach.inv (fun u => u.Inv retention ∧ LogSite.Grown retention s u) ?_ hlater
      ⟨hI, LogSite.Grown.refl s⟩
    rintro u a u' ⟨hu, hgrown⟩ - hstep
    obtain ⟨hu', hmore⟩ := LogSite.good_step hu hstep
    exact ⟨hu', hgrown.trans hI hmore⟩
  obtain ⟨hI', hgrown⟩ := hgrown
  refine ⟨hgrown.files run hrun hyoung, fun t ht path hplace => ?_⟩
  obtain ⟨t', ht', hid, hplace', hrow⟩ := hgrown.rows t ht run path hplace
  obtain ⟨hle, hsome⟩ := hrow hyoung
  obtain ⟨hpath, hcount⟩ := hI'.counted t' ht' run path hplace' hyoung
  rw [LogSite.held] at hcount
  refine ⟨t', ht', hid, hle, fun h => ?_, hpath, by omega⟩
  obtain ⟨q, hq⟩ := Option.isSome_iff_exists.mp (hsome h)
  rw [hq, hpath q hq]

def emptyLogDb : LogDb := ⟨[], [], [], List.nodup_nil, List.nodup_nil, List.nodup_nil⟩

/-- A step of a run writes and is recorded. -/
def oneLog : List LogLabel :=
  [.createRun 0 1, .createJob ⟨"j", newId 0 1, "build"⟩, .createStep "j.0" "j" 0,
    .append "j.0" [104, 105], .openFile 0, .write 0, .record 0]

private def emptySite : LogSite := ⟨0, emptyLogDb, fun _ => none, [], [], [], [], []⟩

/-- The row counts what is not in the file, and may never be. -/
example : (((retentionMachine 60 200).run emptySite (oneLog ++ [.lose 0])).map fun s =>
    (s.db.steps.map (·.logBytes), s.paths.map s.disk, s.lost.map Prod.snd)) =
    some ([2], [some []], [2]) := rfl

theorem young_logs_kept_later : ∃ s s' : LogSite,
    (retentionMachine 60 200).Reachable Machine.anyStep s ∧
    (retentionMachine 60 200).Reach Machine.anyStep s s' ∧ s'.now = 30 ∧
    (∀ q, runLogDir (newId 0 1) <+: q → ∀ x, s.disk q = some x → ∃ y, s'.disk q = some (x ++ y)) ∧
    ∀ t ∈ s.db.steps, ∀ path, s.db.place t = some (newId 0 1, path) →
      ∃ t' ∈ s'.db.steps, t'.id = t.id ∧ t'.logBytes ≤ ((s'.disk path).getD []).length +
        LogSite.flying s'.flights path + LogSite.lostOf s'.lost path := by
  have hinit : (retentionMachine 60 200).init emptySite :=
    ⟨rfl, rfl, rfl, fun _ => rfl, rfl, rfl, rfl, rfl, rfl⟩
  obtain ⟨s, hs, hnow, hruns⟩ : ∃ s, (retentionMachine 60 200).run emptySite oneLog = some s ∧
      s.now = 0 ∧ s.db.runs = [(newId 0 1, 0)] := ⟨_, rfl, rfl, rfl⟩
  have hstep : (retentionMachine 60 200).step s (.tick 30) = some { s with now := s.now + 30 } := rfl
  have hrun : newId 0 1 ∈ s.db.runs.map Prod.fst := by
    rw [hruns]
    exact List.mem_singleton.mpr rfl
  have hyoung : LogSite.Young 60 { s with now := s.now + 30 } (newId 0 1) :=
    ⟨0, by rw [hruns]; exact List.mem_singleton.mpr rfl, by dsimp only; omega⟩
  have hr := Machine.reachable_of_run hinit hs
  have hlater : (retentionMachine 60 200).Reach Machine.anyStep s _ := Machine.Reach.single trivial hstep
  obtain ⟨hfiles, hrows⟩ := young_logs_kept 60 200 hr hlater hrun hyoung
  refine ⟨s, _, hr, hlater, by dsimp only; omega, hfiles, fun t ht path hplace => ?_⟩
  obtain ⟨t', ht', hid, -, -, -, hle⟩ := hrows t ht path hplace
  exact ⟨t', ht', hid, hle⟩

end HeyoCi
