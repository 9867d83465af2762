import HeyoCi.Lib.Base64
import HeyoCi.Sched.Pass
import HeyoCi.Steps.Artifacts
import HeyoCi.Steps.Outputs
import HeyoCi.Steps.Timeout

/-!
# Collecting an artifact

`ci/upload-artifact` reads an archive out of the guest: `tar` writes it into a pipe, `base64` makes text
of it, and what the command wrote is read as that text.

* `ActionCalls`, `runAction`: the built-in action, with what is put into the sink;
* `visible`: the letters that are read; `Reported.visible_of_err`, `Reported.length_visible`;
* `Collection`: what the commands of the script do; `Faithful`: the archive is stored where they succeed,
  and nothing where one of them fails;
* **`runAction_iff`**: so it is exactly where nothing else is read in the first case, and no archive in
  the second.
-/

namespace HeyoCi

/-! ## The action -/

/-- Single-quote a value for `sh`. -/
def shellQuote (s : String) : String :=
  String.ofList ('\'' :: (s.toList.flatMap fun c =>
    if c = '\'' then ['\'', '\\', '\'', '\''] else [c]) ++ ['\''])

def collectScript (workdir path : String) : String :=
  s!"cd {shellQuote workdir} && tar -czf - {shellQuote path} | base64; echo"

/-- What is left of a text without its white space. -/
def visible (cs : List Char) : List Char := cs.filter fun c => !Text.isWhitespace c

/-- What the outside answers to an action. -/
structure ActionCalls where
  /-- A command, by its operation id, its script, its environment and its timeout. -/
  exec : String → String → List (String × String) → Nat → Except String ExecOutput
  /-- What is said of letters that are no base64. -/
  decodeError : List Char → String
  /-- The workflow of the run, if there is such a run. -/
  getRun : String → Except String (Option String)
  put : ArtifactRef → Bytes → Except String StoredArtifact
  recordArtifact : String → String → String → StoredArtifact → Except String Unit

section Action

variable (calls : ActionCalls)

/-- The bytes that the result of the script is read as. -/
def readArchive (path : String) (out : ExecOutput) : Except DispatchError Bytes :=
  if !out.succeeded then
    .error (.artifact s!"collecting {Text.debugStr path} exited {out.exitCode}: {Text.trim out.combined}")
  else
    let encoded := visible out.combined.toList
    match Base64.decode encoded with
    | some bytes => .ok bytes
    | none => .error (.artifact s!"the guest returned unreadable data: {calls.decodeError encoded}")

/-- Put an archive into the sink and record it, with what the sink has taken. -/
def storeArchive (msg : JobMessage) (plan : JobPlan) (name : String) (bytes : Bytes) :
    List (ArtifactRef × Bytes) × Except DispatchError String :=
  match calls.getRun msg.runId with
  | .error e => ([], .error (.store e))
  | .ok run =>
    let aref : ArtifactRef := ⟨msg.runId, plan.key, run.getD "", name⟩
    match calls.put aref bytes with
    | .error e => ([], .error (.artifact e))
    | .ok stored => ([(aref, bytes)], match calls.recordArtifact msg.runId msg.jobId name stored with
      | .error e => .error (.store e)
      | .ok () => .ok (s!"[ci] stored artifact {Text.debugStr name} ({stored.sizeBytes} bytes) in the " ++
          s!"{stored.sink} sink as {stored.uri}\n"))

/-- A built-in `uses:` action, with what the sink has taken; `withArg` is what its `with:` says. -/
def runAction (msg : JobMessage) (plan : JobPlan) (action : String) (withArg : String → Option String)
    (sid : String) : List (ArtifactRef × Bytes) × Except DispatchError String :=
  if action = "ci/upload-artifact" then
    match withArg "name", withArg "path" with
    | none, _ => ([], .error (.artifact "ci/upload-artifact needs `with.name`"))
    | some _, none => ([], .error (.artifact "ci/upload-artifact needs `with.path`"))
    | some name, some path =>
      let script := collectScript (plan.vm.workingDirectory.getD defaultWorkdir) path
      match calls.exec s!"{sid}.a" script [] uploadTimeout with
      | .error e => ([], .error (.vm e))
      | .ok out => match readArchive calls path out with
        | .error e => ([], .error e)
        | .ok bytes => storeArchive calls msg plan name bytes
  else
    ([], .error (.artifact (s!"`uses: {action}` is not a built-in action. Available: " ++
      "ci/upload-artifact. Composite actions from a repository are not supported.")))

end Action

/-! ## What is read of a result -/

open Shell

section Visible

theorem visible_append (xs ys : List Char) : visible (xs ++ ys) = visible xs ++ visible ys :=
  List.filter_append xs ys

/-- The streams apart are read one behind the other. -/
theorem visible_combined_split (stdout stderr : String) (status : Int) :
    visible (ExecOutput.mk "" stdout stderr status).combined.toList =
      visible stdout.toList ++ visible stderr.toList := by
  have hline : visible ['\n'] = [] := rfl
  rw [ExecOutput.combined]
  split_ifs with hempty herr hlast
  · exact absurd hempty (by simp)
  · have hnil : stderr.toList = [] := String.toList_eq_nil_iff.mpr (String.isEmpty_iff.mp herr)
    rw [hnil]
    exact (List.append_nil _).symm
  · change visible (stdout ++ "\n" ++ stderr).toList = _
    rw [String.toList_append, String.toList_append, visible_append, visible_append]
    change visible stdout.toList ++ visible ['\n'] ++ _ = _
    rw [hline, List.append_nil]
  · change visible (stdout ++ stderr).toList = _
    rw [String.toList_append, visible_append]

theorem visible_on_append (s : Stream) (ws ws' : Writes Char) :
    visible (on s (ws ++ ws')) = visible (on s ws) ++ visible (on s ws') := by
  rw [on_append, visible_append]

variable {ran : Done Char} {out : ExecOutput}

theorem Reported.exitCode (h : Reported ran out) : out.exitCode = ran.status := by
  cases h <;> rfl

/-- Where one text is reported, it is not empty. -/
theorem Reported.visible_eq (h : Reported ran out) (hne : text ran.writes ≠ []) :
    visible out.combined.toList = visible (text ran.writes) ∨
      visible out.combined.toList =
        visible (on .out ran.writes) ++ visible (on .err ran.writes) := by
  cases h with
  | interleaved stdout stderr =>
    have hempty : (String.ofList (text ran.writes)).isEmpty = false := by
      rw [Bool.eq_false_iff, ne_eq, String.isEmpty_iff, ← String.toList_eq_nil_iff,
        String.toList_ofList]
      exact hne
    refine Or.inl ?_
    rw [ExecOutput.combined]
    simp only [hempty, Bool.not_false, if_true]
    rw [String.toList_ofList]
  | split =>
    refine Or.inr ?_
    rw [visible_combined_split, String.toList_ofList, String.toList_ofList]

/-- What is read where nothing visible is on the second stream. -/
theorem Reported.visible_of_err (h : Reported ran out) (hne : text ran.writes ≠ [])
    (herr : visible (on .err ran.writes) = []) :
    visible out.combined.toList = visible (on .out ran.writes) := by
  rcases h.visible_eq hne with heq | heq
  · rw [heq]
    exact filter_text herr
  · rw [heq, herr, List.append_nil]

/-- Every letter is read, in either shape. -/
theorem Reported.length_visible (h : Reported ran out) (hne : text ran.writes ≠ []) :
    (visible out.combined.toList).length =
      (visible (on .out ran.writes)).length + (visible (on .err ran.writes)).length := by
  rcases h.visible_eq hne with heq | heq
  · rw [heq, visible, visible, visible, ← List.countP_eq_length_filter,
      ← List.countP_eq_length_filter, ← List.countP_eq_length_filter]
    exact countP_text _ _
  · rw [heq, List.length_append]

end Visible

/-! ## The commands of the script -/

/-- What the commands of `collectScript` do. What `base64` writes is the text of the archive, which it
cuts into lines as it likes; it and what `tar` says come in any order. -/
structure Collection where
  cd : Done Char
  /-- What `tar` writes into the pipe. -/
  archive : Bytes
  tarStatus : Nat
  piped : Writes Char
  encoded : visible (on .out piped) = Base64.encode archive

namespace Collection

variable (c : Collection)

/-- What the script does, `cd W && tar | base64; echo`. A pipeline has the status of its last command,
which is 0. -/
def ran : Done Char := (c.cd.and ⟨c.piped, 0⟩).seq ⟨[(.out, ['\n'])], 0⟩

def Succeeds : Prop := c.cd.succeeded = true ∧ c.tarStatus = 0

instance : Decidable c.Succeeds := instDecidableAnd

/-- **The archive is stored where the commands succeed**, whatever they say, and where one of them fails
nothing is. -/
def Faithful (aref : ArtifactRef)
    (result : List (ArtifactRef × Bytes) × Except DispatchError String) : Prop :=
  if c.Succeeds then result.1 = [(aref, c.archive)] ∧ ∃ note, result.2 = .ok note
  else result.1 = [] ∧ ∃ e, result.2 = .error e

/-- Nothing else is read than the archive, or, where a command fails, what is read is no archive. -/
def Apart (out : ExecOutput) : Prop :=
  if c.Succeeds then visible (text c.cd.writes) = [] ∧ visible (on .err c.piped) = []
  else ∀ bytes, visible out.combined.toList ≠ Base64.encode bytes

theorem text_ran_ne_nil : text c.ran.writes ≠ [] := by
  rw [ran, Done.seq, text_append]
  exact List.append_ne_nil_of_right_ne_nil _ (List.cons_ne_nil _ _)

variable {c}

theorem visible_ran (h : c.cd.succeeded = true) :
    visible (on .out c.ran.writes) = visible (on .out c.cd.writes) ++ Base64.encode c.archive ∧
    visible (on .err c.ran.writes) = visible (on .err c.cd.writes) ++ visible (on .err c.piped) := by
  have hline : visible (on .out [(.out, ['\n'])]) = [] := rfl
  have hnone : visible (on .err [(.out, ['\n'])]) = [] := rfl
  rw [ran, Done.and, if_pos h, Done.seq, Done.seq]
  simp only [visible_on_append]
  rw [c.encoded, hline, hnone, List.append_nil, List.append_nil]
  exact ⟨rfl, rfl⟩

theorem visible_text_eq_nil {ws : Writes Char} :
    visible (text ws) = [] ↔ visible (on .out ws) = [] ∧ visible (on .err ws) = [] := by
  simp only [visible, ← List.length_eq_zero_iff, ← List.countP_eq_length_filter, countP_text]
  omega

/-- What is read of commands that succeed is the archive, exactly where they say nothing visible. -/
theorem read_archive_iff {out : ExecOutput} (hout : Reported c.ran out)
    (h : c.cd.succeeded = true) :
    visible out.combined.toList = Base64.encode c.archive ↔
      visible (text c.cd.writes) = [] ∧ visible (on .err c.piped) = [] := by
  obtain ⟨hvisible, herr⟩ := visible_ran h
  rw [visible_text_eq_nil]
  constructor
  · intro heq
    have hlen := hout.length_visible c.text_ran_ne_nil
    rw [heq, hvisible, herr, List.length_append, List.length_append] at hlen
    refine ⟨⟨?_, ?_⟩, ?_⟩ <;> rw [← List.length_eq_zero_iff] <;> omega
  · rintro ⟨⟨hcd, hcderr⟩, hpiped⟩
    rw [hcderr, hpiped] at herr
    rw [hout.visible_of_err c.text_ran_ne_nil herr, hvisible, hcd]
    rfl

end Collection

/-! ## The action on such a result -/

/-- The store and the sink take what they are given. -/
structure ActionCalls.Works (calls : ActionCalls) (msg : JobMessage) (run : Option String) : Prop where
  getRun : calls.getRun msg.runId = .ok run
  put : ∀ aref bytes, ∃ stored, calls.put aref bytes = .ok stored
  record : ∀ name stored, calls.recordArtifact msg.runId msg.jobId name stored = .ok ()

section Result

variable {calls : ActionCalls} {msg : JobMessage} {plan : JobPlan} {run : Option String}
  {withArg : String → Option String} {sid name path : String} {out : ExecOutput}

variable (plan name) in
theorem storeArchive_works (h : calls.Works msg run) (bytes : Bytes) :
    ∃ note, storeArchive calls msg plan name bytes =
      ([(⟨msg.runId, plan.key, run.getD "", name⟩, bytes)], .ok note) := by
  obtain ⟨stored, hput⟩ := h.put ⟨msg.runId, plan.key, run.getD "", name⟩ bytes
  rw [storeArchive]
  simp only [h.getRun, hput, h.record]
  exact ⟨_, rfl⟩

theorem readArchive_of_decode (h : out.exitCode = 0) {bytes : Bytes}
    (hread : visible out.combined.toList = Base64.encode bytes) :
    readArchive calls path out = .ok bytes := by
  rw [readArchive, ExecOutput.succeeded, h]
  simp only [Base64.decode_eq_some.mpr hread]
  rfl

variable (calls path) in
theorem readArchive_of_decode_eq_none (h : out.exitCode = 0)
    (hread : ∀ bytes, visible out.combined.toList ≠ Base64.encode bytes) :
    ∃ e, readArchive calls path out = .error e := by
  rw [readArchive, ExecOutput.succeeded, h]
  simp only [Base64.decode_eq_none.mpr hread]
  exact ⟨_, rfl⟩

variable (msg) in
/-- The action, once the result of its script is there. -/
theorem runAction_of_exec (hname : withArg "name" = some name) (hpath : withArg "path" = some path)
    (hexec : calls.exec s!"{sid}.a" (collectScript (plan.vm.workingDirectory.getD defaultWorkdir) path)
      [] uploadTimeout = .ok out) :
    runAction calls msg plan "ci/upload-artifact" withArg sid = match readArchive calls path out with
      | .error e => ([], .error e)
      | .ok bytes => storeArchive calls msg plan name bytes := by
  rw [runAction, if_pos rfl]
  simp only [hname, hpath, hexec]

/-- **An artifact is collected faithfully exactly where nothing but the archive is read**, and where no
archive is read of commands that fail. -/
theorem runAction_iff {c : Collection} (hworks : calls.Works msg run)
    (hname : withArg "name" = some name) (hpath : withArg "path" = some path)
    (hexec : calls.exec s!"{sid}.a" (collectScript (plan.vm.workingDirectory.getD defaultWorkdir) path)
      [] uploadTimeout = .ok out) (hout : Reported c.ran out) :
    c.Faithful ⟨msg.runId, plan.key, run.getD "", name⟩
      (runAction calls msg plan "ci/upload-artifact" withArg sid) ↔ c.Apart out := by
  have hstatus : out.exitCode = 0 := hout.exitCode
  have haction := runAction_of_exec msg hname hpath hexec
  by_cases hread : ∃ bytes, visible out.combined.toList = Base64.encode bytes
  · obtain ⟨bytes, hbytes⟩ := hread
    obtain ⟨note, hstore⟩ := storeArchive_works plan name hworks bytes
    rw [readArchive_of_decode hstatus hbytes] at haction
    rw [haction, Collection.Faithful, Collection.Apart]
    simp only [hstore]
    by_cases hsucc : c.Succeeds
    · rw [if_pos hsucc, if_pos hsucc, ← Collection.read_archive_iff hout hsucc.1, hbytes]
      constructor
      · rintro ⟨hputs, -⟩
        rw [List.cons.injEq, Prod.mk.injEq] at hputs
        rw [hputs.1.2]
      · intro heq
        rw [Base64.encode_inj heq]
        exact ⟨rfl, note, rfl⟩
    · rw [if_neg hsucc, if_neg hsucc]
      exact iff_of_false (fun h => List.cons_ne_nil _ _ h.1) fun h => h bytes hbytes
  · rw [not_exists] at hread
    obtain ⟨e, herror⟩ := readArchive_of_decode_eq_none calls path hstatus hread
    rw [herror] at haction
    rw [haction, Collection.Faithful, Collection.Apart]
    by_cases hsucc : c.Succeeds
    · rw [if_pos hsucc, if_pos hsucc, ← Collection.read_archive_iff hout hsucc.1]
      exact iff_of_false (fun h => List.cons_ne_nil _ _ h.1.symm) (hread c.archive)
    · rw [if_neg hsucc, if_neg hsucc]
      exact iff_of_true ⟨rfl, e, rfl⟩ hread

/-- The outside, where the script has this result. -/
def sampleCalls (out : ExecOutput) : ActionCalls where
  exec _ _ _ _ := .ok out
  decodeError _ := "Invalid padding"
  getRun _ := .ok (some "app")
  put aref bytes := .ok ⟨"disk", none, bytes.length, aref.name⟩
  recordArtifact _ _ _ _ := .ok ()

def sampleMessage : JobMessage := ⟨"018bcfe56800-00000000", "018bcfe56800-00000000.build", "build"⟩

def samplePlan : JobPlan where
  key := "build"
  baseId := "build"
  display := "build"
  target := ⟨none, none, none, false⟩
  fallback := .none
  vm := ⟨none, none, false, none⟩
  needs := []
  condition := none
  mtx := []
  env := []
  outputs := []
  continueOnError := false
  steps := []
  maxParallel := none
  failFast := true

def sampleWith (_ : String) : Option String := some "dist"

/-- What is reported of two bytes, the streams apart. -/
def sampleOutput : ExecOutput := ⟨"", "aGk=\n\n", "", 0⟩

/-- Two bytes in a pipe, and a status of `tar`, which says nothing. -/
def sampleCollection (tarStatus : Nat) : Collection where
  cd := ⟨[], 0⟩
  archive := [104, 105]
  tarStatus := tarStatus
  piped := [(.out, "aGk=\n".toList)]
  encoded := by decide

theorem sampleCalls_works (out : ExecOutput) : (sampleCalls out).Works sampleMessage (some "app") :=
  ⟨rfl, fun _ _ => ⟨_, rfl⟩, fun _ _ => rfl⟩

theorem sample_reported (tarStatus : Nat) :
    Reported (sampleCollection tarStatus).ran sampleOutput := by
  have hsplit := @Reported.split (sampleCollection tarStatus).ran
  have hout : on .out (sampleCollection tarStatus).ran.writes = "aGk=\n\n".toList := rfl
  have herr : on .err (sampleCollection tarStatus).ran.writes = [] := rfl
  rw [hout, herr, String.ofList_toList] at hsplit
  exact hsplit

/-- The archive is stored. -/
theorem two_bytes_stored : (sampleCollection 0).Faithful ⟨sampleMessage.runId, "build", "app", "dist"⟩
    (runAction (sampleCalls sampleOutput) sampleMessage samplePlan "ci/upload-artifact" sampleWith
      "018bcfe56800-00000000.build.0") := by
  have hname : sampleWith "name" = some "dist" := rfl
  have hpath : sampleWith "path" = some "dist" := rfl
  have hexec : (sampleCalls sampleOutput).exec "018bcfe56800-00000000.build.0.a"
      (collectScript (samplePlan.vm.workingDirectory.getD defaultWorkdir) "dist") [] uploadTimeout =
      .ok sampleOutput := rfl
  refine (runAction_iff (sampleCalls_works _) hname hpath hexec (sample_reported 0)).mpr ?_
  have hsucc : (sampleCollection 0).Succeeds := by decide
  rw [Collection.Apart, if_pos hsucc]
  exact ⟨rfl, rfl⟩

/-- It is stored as well where `tar` fails. -/
theorem failed_tar_stored : ¬ ∀ (calls : ActionCalls) (msg : JobMessage) (plan : JobPlan)
    (run : Option String) (withArg : String → Option String) (sid name path : String)
    (out : ExecOutput) (c : Collection), calls.Works msg run → withArg "name" = some name →
    withArg "path" = some path → calls.exec s!"{sid}.a"
      (collectScript (plan.vm.workingDirectory.getD defaultWorkdir) path) [] uploadTimeout = .ok out →
    Reported c.ran out → c.Faithful ⟨msg.runId, plan.key, run.getD "", name⟩
      (runAction calls msg plan "ci/upload-artifact" withArg sid) := by
  intro h
  have hfaithful := h (sampleCalls sampleOutput) sampleMessage samplePlan (some "app") sampleWith
    "018bcfe56800-00000000.build.0" "dist" "dist" sampleOutput (sampleCollection 2)
    (sampleCalls_works _) rfl rfl rfl (sample_reported 2)
  have hfails : ¬ (sampleCollection 2).Succeeds := by decide
  rw [Collection.Faithful, if_neg hfails] at hfaithful
  have hputs := hfaithful.1
  revert hputs
  decide

end Result

end HeyoCi
