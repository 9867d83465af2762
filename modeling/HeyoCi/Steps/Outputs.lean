import HeyoCi.Ids.Operations
import HeyoCi.Lib.Shell
import HeyoCi.Lib.Words
import HeyoCi.Steps.Run
import HeyoCi.Submit.Trim

/-!
# The outputs of a step

A step's outputs are printed behind a marker after what its script writes, and cut off again. The
daemon gives what was written as one text, or the two streams apart.

* `Text.linesFrom_append`, `Text.splitLast_last`: lines, and the last occurrence of a word;
* `Reported`: the two shapes of a result; `wrapped`: what is written, the file behind the marker;
* `declaredBy`: the outputs that a file declares; `declarations_end`: the end of its last line counts
  only in a carriage return before it;
* `Told`: the outputs are those of the file, and the log has all that the script wrote;
* **`splitOutputs_iff`**: so it is exactly when nothing visible is on a stream of its own.
-/

namespace HeyoCi

namespace Text

/-! ## Lines -/

theorem linesFrom_append (line xs ys : List Char) :
    linesFrom line (xs ++ '\n' :: ys) = linesFrom line (xs ++ ['\n']) ++ linesFrom [] ys := by
  induction xs generalizing line with
  | nil => rfl
  | cons x xs ih =>
    rw [List.cons_append, List.cons_append, linesFrom, linesFrom]
    split_ifs
    · rw [ih, List.cons_append]
    · exact ih _

theorem linesFrom_of_notMem {xs : List Char} (h : '\n' ∉ xs) (line : List Char) :
    linesFrom line xs = if (line ++ xs).isEmpty then [] else [line ++ xs] := by
  induction xs generalizing line with
  | nil => rw [linesFrom, List.append_nil]
  | cons x xs ih =>
    rw [List.mem_cons, not_or] at h
    rw [linesFrom, if_neg (Ne.symm h.1), ih h.2, List.append_assoc, List.singleton_append]

theorem linesFrom_ended {xs : List Char} (h : '\n' ∉ xs) (line : List Char) :
    linesFrom line (xs ++ ['\n']) = [stripCr (line ++ xs)] := by
  induction xs generalizing line with
  | nil =>
    rw [List.nil_append, linesFrom, if_pos rfl, List.append_nil]
    rfl
  | cons x xs ih =>
    rw [List.mem_cons, not_or] at h
    rw [List.cons_append, linesFrom, if_neg (Ne.symm h.1), ih h.2, List.append_assoc,
      List.singleton_append]

theorem mem_of_mem_stripCr {line : List Char} {c : Char} (h : c ∈ stripCr line) : c ∈ line := by
  rw [stripCr] at h
  split_ifs at h
  · exact List.dropLast_subset line h
  · exact h

/-- What is in a line is in the text. -/
theorem mem_of_mem_linesFrom {line cs l : List Char} (h : l ∈ linesFrom line cs) {c : Char}
    (hc : c ∈ l) : c ∈ line ∨ c ∈ cs := by
  induction cs generalizing line with
  | nil =>
    rw [linesFrom] at h
    split_ifs at h
    · cases h
    · rw [List.mem_singleton.mp h] at hc
      exact Or.inl hc
  | cons x cs ih =>
    rw [linesFrom] at h
    split_ifs at h with hx
    · rcases List.mem_cons.mp h with rfl | h
      · exact Or.inl (mem_of_mem_stripCr hc)
      · exact (ih h).elim (fun hnil => absurd hnil List.not_mem_nil)
          fun hcs => Or.inr (List.mem_cons_of_mem x hcs)
    · rcases ih h with hline | hcs
      · rcases List.mem_append.mp hline with hline | hline
        · exact Or.inl hline
        · exact Or.inr (List.mem_cons.mpr (Or.inl (List.mem_singleton.mp hline)))
      · exact Or.inr (List.mem_cons_of_mem x hcs)

/-! ## The last occurrence of a word -/

/-- A text is cut at an occurrence behind which there is no other one. -/
theorem splitLast_last {pat after : List Char} (hne : pat ≠ [])
    (hlast : ¬ pat <:+: (pat ++ after).tail) (before : List Char) :
    splitLast pat (before ++ (pat ++ after)) = some (before, after) := by
  induction before with
  | nil =>
    cases pat with
    | nil => exact absurd rfl hne
    | cons p ps =>
      have hnone : splitLast (p :: ps) (ps ++ after) = none := by
        cases hs : splitLast (p :: ps) (ps ++ after) with
        | none => rfl
        | some found =>
          refine absurd ⟨found.1, found.2, ?_⟩ hlast
          rw [List.append_assoc, ← splitLast_eq hs]
          rfl
      have hpre : (p :: ps).isPrefixOf (p :: (ps ++ after)) = true :=
        List.isPrefixOf_iff_prefix.mpr (List.prefix_append (p :: ps) after)
      rw [List.nil_append, List.cons_append, splitLast, hnone]
      simp only [hpre, if_true]
      rw [← List.cons_append, List.drop_left]
  | cons x before ih => rw [List.cons_append, splitLast, ih]

/-- So it is where the word is on a line of its own, and does not occur behind it. -/
theorem splitLast_line {pat rest : List Char} (hne : pat ≠ []) (hline : '\n' ∉ pat)
    (hrest : ¬ pat <:+: rest) (before : List Char) :
    splitLast pat (before ++ (pat ++ '\n' :: rest)) = some (before, '\n' :: rest) := by
  refine splitLast_last hne (fun hin => ?_) before
  cases pat with
  | nil => exact hne rfl
  | cons p ps =>
    rcases Words.infix_append_cons hline hin with hps | hin
    · have hle := hps.length_le
      rw [List.length_cons] at hle
      omega
    · exact hrest hin

end Text

/-! ## What a file declares -/

section Declared

/-- The outputs that the lines of a text declare, in their order. -/
def declarations (cs : List Char) : List (String × String) :=
  ((Text.linesFrom [] cs).map String.ofList).filterMap declared

/-- The last declaration of a name counts. -/
def collectOutputs (ds : List (String × String)) : Json.Obj :=
  ds.foldl (fun map d => Json.Obj.insert d.1 (.str d.2) map) []

/-- The outputs that a file declares. -/
def declaredBy (file : String) : Json.Obj := collectOutputs (declarations file.toList)

theorem declared_of_notMem {line : String} (h : '=' ∉ line.toList) : declared line = none := by
  rw [declared]
  cases hs : Text.splitOnce '=' line.toList with
  | none => rfl
  | some kv =>
    obtain ⟨k, v⟩ := kv
    have hline := (Text.splitOnce_eq_some.mp hs).1
    exact absurd (hline ▸ List.mem_append_right k List.mem_cons_self) h

theorem declarations_append (xs ys : List Char) :
    declarations (xs ++ '\n' :: ys) = declarations (xs ++ ['\n']) ++ declarations ys := by
  rw [declarations, Text.linesFrom_append, List.map_append, List.filterMap_append]
  rfl

/-- A text without an equals sign declares nothing. -/
theorem declarations_of_notMem {cs : List Char} (h : '=' ∉ cs) : declarations cs = [] := by
  rw [declarations, List.filterMap_eq_nil_iff, List.forall_mem_map]
  intro line hline
  refine declared_of_notMem fun hmem => h ?_
  rw [String.toList_ofList] at hmem
  exact (Text.mem_of_mem_linesFrom hline hmem).elim (fun hnil => absurd hnil List.not_mem_nil) id

theorem declarations_line {line : List Char} (h : '\n' ∉ line) :
    declarations line = (declared (String.ofList line)).toList := by
  rw [declarations, Text.linesFrom_of_notMem h, List.nil_append]
  cases line with
  | nil => rfl
  | cons c cs =>
    rw [if_neg (by simp), List.map_singleton, List.filterMap_cons, List.filterMap_nil]
    cases declared (String.ofList (c :: cs)) <;> rfl

theorem declarations_ended {line : List Char} (h : '\n' ∉ line) :
    declarations (line ++ ['\n']) = (declared (String.ofList (Text.stripCr line))).toList := by
  rw [declarations, Text.linesFrom_ended h, List.nil_append, List.map_singleton, List.filterMap_cons,
    List.filterMap_nil]
  cases declared (String.ofList (Text.stripCr line)) <;> rfl

/-- A carriage return at the end of a line is part of the value it declares. -/
theorem declared_cr (line : List Char) : declared (String.ofList (line ++ ['\r'])) =
    (declared (String.ofList line)).map fun d => (d.1, d.2 ++ "\r") := by
  have hsplit : Text.splitOnce '=' (line ++ ['\r']) =
      (Text.splitOnce '=' line).map fun p => (p.1, p.2 ++ ['\r']) := by
    induction line with
    | nil => rfl
    | cons c line ih =>
      rw [List.cons_append, Text.splitOnce, Text.splitOnce]
      split_ifs
      · rfl
      · rw [ih, Option.map_map, Option.map_map]
        rfl
  rw [declared, declared, String.toList_ofList, String.toList_ofList, hsplit]
  cases Text.splitOnce '=' line with
  | none => rfl
  | some kv =>
    simp only [Option.map_some, Option.bind_some]
    split_ifs
    · rfl
    · rw [Option.map_some, String.ofList_append]

theorem collectOutputs_append (ds ds' : List (String × String)) : collectOutputs (ds ++ ds') =
    ds'.foldl (fun map d => Json.Obj.insert d.1 (.str d.2) map) (collectOutputs ds) :=
  List.foldl_append

/-- The text behind the last line feed of a file, which is empty where that ends the file. -/
def lastLine (file : String) : List Char := Text.afterLast '\n' file.toList

/-- A carriage return at the end of the file is none of a value. -/
def EndsAlike (file : String) : Prop :=
  (lastLine file).getLast? = some '\r' → declared (String.ofList (lastLine file)) = none

/-- The lines before the last line of a file. -/
theorem exists_lastLine (file : String) : ∃ before, file.toList = before ++ lastLine file ∧
    '\n' ∉ lastLine file ∧
    ∀ xs, declarations (before ++ xs) = declarations before ++ declarations xs := by
  cases hs : Text.splitLast ['\n'] file.toList with
  | none =>
    have hno := Text.splitLast_eq_none.mp hs
    refine ⟨[], ?_, ?_, fun xs => rfl⟩
    · rw [lastLine, Text.afterLast_of_notMem hno, List.nil_append]
    · rwa [lastLine, Text.afterLast_of_notMem hno]
  | some parts =>
    obtain ⟨before, last⟩ := parts
    obtain ⟨hfile, hlast⟩ := Text.splitLast_eq_some.mp hs
    have hline : lastLine file = last := by rw [lastLine, hfile, Text.afterLast_cons hlast]
    refine ⟨before ++ ['\n'], ?_, ?_, fun xs => ?_⟩
    · rw [hline, hfile, List.append_assoc, List.singleton_append]
    · rwa [hline]
    · rw [List.append_assoc, List.singleton_append, declarations_append]

/-- **What is behind a file is read apart from it**, a line feed between the two, exactly where the
file ends alike. -/
theorem declarations_end {file : String} {rest : List Char} (hrest : '=' ∉ rest) :
    collectOutputs (declarations (file.toList ++ '\n' :: rest)) = declaredBy file ↔
      EndsAlike file := by
  obtain ⟨before, hfile, hline, hsplit⟩ := exists_lastLine file
  rw [declarations_append, declarations_of_notMem hrest, List.append_nil, declaredBy, EndsAlike]
  rw [hfile, List.append_assoc, hsplit, hsplit, declarations_ended hline, declarations_line hline,
    collectOutputs_append, collectOutputs_append]
  by_cases hcr : (lastLine file).getLast? = some '\r'
  · obtain ⟨line, heq⟩ := List.getLast?_eq_some_iff.mp hcr
    rw [imp_iff_right hcr, Text.stripCr, if_pos hcr, heq, List.dropLast_concat, declared_cr]
    cases declared (String.ofList line) with
    | none => exact iff_of_true rfl rfl
    | some d =>
      refine iff_of_false (fun hmaps => ?_) fun hnone => by cases hnone
      have hvalue := congrArg (Json.Obj.get · d.1) hmaps
      simp only [Option.map_some, Option.toList_some, List.foldl_cons, List.foldl_nil,
        Json.Obj.get_insert, Option.some.injEq, Json.str.injEq] at hvalue
      have hlen := congrArg String.length hvalue
      rw [String.length_append] at hlen
      have hone : "\r".length = 1 := rfl
      omega
  · rw [Text.stripCr, if_neg hcr]
    exact iff_of_true rfl fun h => absurd h hcr

end Declared

/-! ## The result of a step -/

section Result

open Shell

/-- What the daemon says of a command: what it wrote as one text, or the two streams apart. -/
inductive Reported (ran : Done Char) : ExecOutput → Prop where
  | interleaved (stdout stderr : String) :
    Reported ran ⟨String.ofList (text ran.writes), stdout, stderr, ran.status⟩
  | split : Reported ran ⟨"", String.ofList (on .out ran.writes), String.ofList (on .err ran.writes),
      ran.status⟩

/-- The wrapper of `wrap_command`: behind what the script writes the marker on a line of its own, then
the file, and the status is that of the script. -/
def wrapped (script : Done Char) (stepId file : String) : Done Char where
  writes := script.writes ++ [(.out, '\n' :: (outputMarker stepId).toList ++ ['\n']), (.out, file.toList)]
  status := script.status

/-- **The outputs are those of the file, and the log has all that the script wrote** on either stream,
but for white space at its end. -/
def Told (script : Writes Char) (file : String) (result : String × Json.Obj) : Prop :=
  result.2 = declaredBy file ∧ ∃ ws, on .out ws = on .out script ∧ on .err ws = on .err script ∧
    result.1.toList = Text.trimEnd (text ws)

/-- Nothing is on a stream of its own but white space, which changes no output. -/
def Harmless (script : Writes Char) (file : String) (out : ExecOutput) : Prop :=
  out.output ≠ "" ∨ on .err script = [] ∨
    (∀ c ∈ on .err script, Text.isWhitespace c = true) ∧ EndsAlike file

theorem trimEnd_append {xs ys : List Char} (h : ∀ c ∈ ys, Text.isWhitespace c = true) :
    Text.trimEnd (xs ++ ys) = Text.trimEnd xs := by
  rw [Text.trimEnd, Text.trimEnd, List.reverse_append, List.dropWhile_append_of_pos]
  exact fun c hc => h c (List.mem_reverse.mp hc)

theorem trimEnd_line (xs : List Char) : Text.trimEnd (xs ++ ['\n']) = Text.trimEnd xs := by
  refine trimEnd_append fun c hc => ?_
  rw [List.mem_singleton.mp hc]
  rfl

theorem countP_trimEnd (xs : List Char) :
    (Text.trimEnd xs).countP (fun c => !Text.isWhitespace c) =
      xs.countP fun c => !Text.isWhitespace c := by
  rw [Text.trimEnd, List.countP_reverse, ← List.countP_reverse (l := xs)]
  conv_rhs => rw [← List.takeWhile_append_dropWhile (p := Text.isWhitespace) (l := xs.reverse)]
  have hspace : (xs.reverse.takeWhile Text.isWhitespace).countP (fun c => !Text.isWhitespace c) = 0 := by
    rw [List.countP_eq_zero]
    intro c hc
    simp [List.mem_takeWhile_imp hc]
  rw [List.countP_append, hspace, Nat.zero_add]

theorem toList_outputMarker (stepId : String) :
    (outputMarker stepId).toList = "::ci-output::".toList ++ stepId.toList ++ "::".toList := by
  simp [outputMarker]
  rfl

theorem outputMarker_ne_nil (stepId : String) : (outputMarker stepId).toList ≠ [] := by
  rw [toList_outputMarker, List.append_assoc]
  exact List.cons_ne_nil _ _

theorem line_notMem_outputMarker {stepId : String} (h : '\n' ∉ stepId.toList) :
    '\n' ∉ (outputMarker stepId).toList := by
  rw [toList_outputMarker, List.mem_append, List.mem_append]
  exact not_or.mpr ⟨not_or.mpr ⟨by decide, h⟩, by decide⟩

theorem splitOutputs_of_combined {out : ExecOutput} {stepId : String} {before rest : List Char}
    (hid : '\n' ∉ stepId.toList)
    (hout : out.combined.toList = before ++ ((outputMarker stepId).toList ++ '\n' :: rest))
    (hrest : ¬ (outputMarker stepId).toList <:+: rest) :
    splitOutputs out stepId =
      (String.ofList (Text.trimEnd before), collectOutputs (declarations rest)) := by
  have hsplit := Text.splitLast_line (outputMarker_ne_nil stepId) (line_notMem_outputMarker hid) hrest
    before
  rw [splitOutputs]
  simp only [hout, hsplit]
  rw [Text.lines, String.toList_ofList]
  have hlines : declarations ('\n' :: rest) = declarations rest := declarations_append [] rest
  rw [← hlines]
  rfl

section Told

variable (script : Done Char) (stepId file : String)

theorem text_wrapped : text (wrapped script stepId file).writes = (text script.writes ++ ['\n']) ++
    ((outputMarker stepId).toList ++ '\n' :: file.toList) := by
  rw [wrapped, text_append]
  simp [text]

theorem on_wrapped : on .out (wrapped script stepId file).writes = (on .out script.writes ++ ['\n']) ++
    ((outputMarker stepId).toList ++ '\n' :: file.toList) ∧
    on .err (wrapped script stepId file).writes = on .err script.writes := by
  rw [wrapped, on_append, on_append]
  simp [on]

variable {script stepId file}

/-- What was written as one text is told. -/
theorem told_interleaved (hid : '\n' ∉ stepId.toList)
    (hfile : ¬ (outputMarker stepId).toList <:+: file.toList) {out : ExecOutput}
    (hout : out.output.toList = text (wrapped script stepId file).writes) :
    Told script.writes file (splitOutputs out stepId) := by
  have hne : out.output.isEmpty = false := by
    rw [Bool.eq_false_iff, ne_eq, String.isEmpty_iff, ← String.toList_eq_nil_iff, hout, text_wrapped]
    simp
  have hcombined : out.combined = out.output := by
    rw [ExecOutput.combined, hne]
    rfl
  rw [splitOutputs_of_combined hid (hcombined ▸ hout.trans (text_wrapped script stepId file)) hfile]
  refine ⟨rfl, script.writes, rfl, rfl, ?_⟩
  rw [String.toList_ofList]
  exact trimEnd_line _

/-- The streams apart, one behind the other: a line feed is put between them where there is none. -/
theorem combined_split {stdout stderr : List Char} {status : Int} (hout : stdout ≠ [])
    (herr : stderr ≠ []) :
    (ExecOutput.mk "" (String.ofList stdout) (String.ofList stderr) status).combined.toList =
      stdout ++ (if stdout.getLast? = some '\n' then [] else ['\n']) ++ stderr := by
  have hempty : ∀ cs : List Char, cs ≠ [] → (String.ofList cs).isEmpty = false := by
    intro cs hne
    rw [Bool.eq_false_iff, ne_eq, String.isEmpty_iff, ← String.toList_eq_nil_iff,
      String.toList_ofList]
    exact hne
  by_cases hlast : stdout.getLast? = some '\n'
  · simp [ExecOutput.combined, hempty stdout hout, hempty stderr herr, hlast]
  · simp [ExecOutput.combined, hempty stdout hout, hempty stderr herr, hlast]

/-- What is behind the marker where the streams come apart: the file, and what is on the other stream
behind it, which the file's last line does not go on into. -/
theorem exists_rest (hfile : ¬ (outputMarker stepId).toList <:+: file.toList)
    (hid : '\n' ∉ stepId.toList) (before : List Char) {err : List Char} (hne : err ≠ [])
    (herr : ¬ (outputMarker stepId).toList <:+: err) (status : Int) :
    ∃ rest, (ExecOutput.mk "" (String.ofList (before ++ ((outputMarker stepId).toList ++
        '\n' :: file.toList))) (String.ofList err) status).combined.toList =
        before ++ ((outputMarker stepId).toList ++ '\n' :: rest) ∧
      ¬ (outputMarker stepId).toList <:+: rest ∧
      ('=' ∉ err → (collectOutputs (declarations rest) = declaredBy file ↔ EndsAlike file)) := by
  have hline := line_notMem_outputMarker hid
  rw [combined_split (by simp) hne]
  have hlast : (before ++ ((outputMarker stepId).toList ++ '\n' :: file.toList)).getLast? =
      ('\n' :: file.toList).getLast? := by
    rw [← List.append_assoc, List.getLast?_append_of_ne_nil _ (List.cons_ne_nil _ _)]
  rw [hlast]
  rcases List.eq_nil_or_concat file.toList with hnil | ⟨lines, c, hc⟩
  · refine ⟨err, by simp [hnil], herr, fun heq => iff_of_true ?_ ?_⟩
    · rw [declarations_of_notMem heq, declaredBy, hnil]
      rfl
    · rw [EndsAlike, lastLine, hnil]
      exact fun h => by cases h
  · rw [List.concat_eq_append] at hc
    have hconcat : ('\n' :: file.toList).getLast? = some c := by
      rw [hc, ← List.cons_append, List.getLast?_concat]
    rw [hconcat]
    by_cases hend : c = '\n'
    · subst hend
      refine ⟨lines ++ '\n' :: err, by simp [hc], fun hin => ?_, fun heq => iff_of_true ?_ ?_⟩
      · rcases Words.infix_append_cons hline hin with h | h
        · exact hfile (h.trans (by rw [hc]; exact (List.prefix_append _ _).isInfix))
        · exact herr h
      · rw [declarations_append, declarations_of_notMem heq, List.append_nil, declaredBy, hc]
      · rw [EndsAlike, lastLine, hc, Text.afterLast_cons List.not_mem_nil]
        exact fun h => by cases h
    · refine ⟨file.toList ++ '\n' :: err, by simp [hend], fun hin => ?_,
        fun heq => declarations_end heq⟩
      rcases Words.infix_append_cons hline hin with h | h
      · exact hfile h
      · exact herr h

/-- What was written as two texts is told exactly where nothing visible is on the second. -/
theorem told_split_iff (hid : '\n' ∉ stepId.toList)
    (hfile : ¬ (outputMarker stepId).toList <:+: file.toList)
    (herr : ¬ (outputMarker stepId).toList <:+: on .err script.writes) {status : Int} :
    Told script.writes file (splitOutputs ⟨"",
      String.ofList (on .out (wrapped script stepId file).writes),
      String.ofList (on .err (wrapped script stepId file).writes), status⟩ stepId) ↔
      on .err script.writes = [] ∨
        (∀ c ∈ on .err script.writes, Text.isWhitespace c = true) ∧ EndsAlike file := by
  obtain ⟨hout, hstderr⟩ := on_wrapped script stepId file
  rw [hout, hstderr]
  by_cases hnil : on .err script.writes = []
  · have hcombined : (ExecOutput.mk "" (String.ofList (on .out script.writes ++ ['\n'] ++
        ((outputMarker stepId).toList ++ '\n' :: file.toList))) (String.ofList []) status).combined.toList =
        (on .out script.writes ++ ['\n']) ++ ((outputMarker stepId).toList ++ '\n' :: file.toList) := by
      simp [ExecOutput.combined]
    rw [hnil, splitOutputs_of_combined hid hcombined hfile, trimEnd_line]
    refine iff_of_true ⟨rfl, [(.out, on .out script.writes)], ?_, ?_, ?_⟩ (Or.inl rfl)
    · simp [on]
    · rw [hnil]
      rfl
    · simp [text]
  · obtain ⟨rest, hcombined, hrest, houtputs⟩ :=
      exists_rest hfile hid (on .out script.writes ++ ['\n']) hnil herr status
    rw [splitOutputs_of_combined hid hcombined hrest, trimEnd_line, or_iff_right hnil]
    have hequals : (∀ c ∈ on .err script.writes, Text.isWhitespace c = true) →
        '=' ∉ on .err script.writes := fun h hmem => absurd (h '=' hmem) (by decide)
    constructor
    · rintro ⟨houts, ws, hwsout, hwserr, hlog⟩
      rw [String.toList_ofList] at hlog
      have hcount := congrArg (List.countP fun c => !Text.isWhitespace c) hlog
      rw [countP_trimEnd, countP_trimEnd, countP_text, hwsout, hwserr, Nat.left_eq_add,
        List.countP_eq_zero] at hcount
      have hblank : ∀ c ∈ on .err script.writes, Text.isWhitespace c = true :=
        fun c hc => by simpa using hcount c hc
      exact ⟨hblank, (houtputs (hequals hblank)).mp houts⟩
    · rintro ⟨hblank, hends⟩
      refine ⟨(houtputs (hequals hblank)).mpr hends, [(.out, on .out script.writes),
        (.err, on .err script.writes)], ?_, ?_, ?_⟩
      · simp [on]
      · simp [on]
      · rw [String.toList_ofList, ← trimEnd_append hblank]
        simp [text]

end Told

/-- The ids of steps have no line feed. -/
theorem line_notMem_stepId {run key : String} (hrun : isRunId run = true)
    (hkey : isSubjectToken key = true) (idx : Nat) :
    '\n' ∉ (Store.stepId (Store.jobId run key) idx).toList := by
  have hid : (Store.stepId (Store.jobId run key) idx).toList =
      run.toList ++ '.' :: (key.toList ++ '.' :: idx.repr.toList) := by
    simp [Store.stepId, Store.jobId, toString]
  have htoken : ∀ {s}, TokenText s → '\n' ∉ s.toList := fun hs hmem =>
    absurd (hs _ hmem) (by decide)
  have hname := htoken (tokenText_of_isRunId hrun).1
  have hjob := htoken (tokenText_of_isSubjectToken hkey)
  have hnum := htoken (tokenText_repr idx)
  rw [hid, List.mem_append, List.mem_cons, List.mem_append, List.mem_cons]
  rintro (h | h | h | h | h)
  · exact hname h
  · cases h
  · exact hjob h
  · cases h
  · exact hnum h

/-- **The outputs of a step are those of its file, and its log has all that its script wrote, exactly
when nothing visible is on a stream of its own**, or on one behind which the file ends alike. -/
theorem splitOutputs_iff {run key : String} (hrun : isRunId run = true)
    (hkey : isSubjectToken key = true) {idx : Nat} {script : Done Char} {file : String} {out : ExecOutput}
    (hfile : ¬ (outputMarker (Store.stepId (Store.jobId run key) idx)).toList <:+: file.toList)
    (herr : ¬ (outputMarker (Store.stepId (Store.jobId run key) idx)).toList <:+: on .err script.writes)
    (hout : Reported (wrapped script (Store.stepId (Store.jobId run key) idx) file) out) :
    Told script.writes file (splitOutputs out (Store.stepId (Store.jobId run key) idx)) ↔
      Harmless script.writes file out := by
  have hid := line_notMem_stepId hrun hkey idx
  cases hout with
  | interleaved stdout stderr =>
    refine iff_of_true (told_interleaved hid hfile (String.toList_ofList)) (Or.inl fun hempty => ?_)
    have hnil := String.toList_eq_nil_iff.mpr hempty
    rw [String.toList_ofList, text_wrapped] at hnil
    simp at hnil
  | split =>
    rw [told_split_iff hid hfile herr, Harmless, or_iff_right (not_not.mpr rfl)]

/-- A step that writes on both streams and declares a version. -/
def versionScript : Done Char := ⟨[(.out, "building\n".toList), (.err, "warning=1\n".toList)], 0⟩

/-- All that is written, where the daemon reports one text. -/
def versionOutput : String :=
  "building\nwarning=1\n\n::ci-output::018bcfe56800-00000000.build.0::\nversion=1.2.3\n"

/-- What it writes on the other stream is no output then. -/
theorem version_told : Told versionScript.writes "version=1.2.3\n" (splitOutputs
    ⟨versionOutput, "", "", 0⟩ (Store.stepId (Store.jobId "018bcfe56800-00000000" "build") 0)) := by
  have hout : Reported (wrapped versionScript (Store.stepId
      (Store.jobId "018bcfe56800-00000000" "build") 0) "version=1.2.3\n")
      ⟨versionOutput, "", "", 0⟩ := by
    have htext : versionOutput = String.ofList (text (wrapped versionScript (Store.stepId
        (Store.jobId "018bcfe56800-00000000" "build") 0) "version=1.2.3\n").writes) := by
      decide
    rw [htext]
    exact .interleaved "" ""
  exact (splitOutputs_iff (by decide) (by decide) (by decide)
    (by decide) hout).mpr (Or.inl (by decide))

/-- Where it reports two, a line of the other stream is taken for an output and is not in the log. -/
theorem stderr_declared : ¬ ∀ (run key : String) (idx : Nat) (script : Done Char) (file : String)
    (out : ExecOutput), isRunId run = true → isSubjectToken key = true →
    ¬ (outputMarker (Store.stepId (Store.jobId run key) idx)).toList <:+: on .out script.writes →
    ¬ (outputMarker (Store.stepId (Store.jobId run key) idx)).toList <:+: on .err script.writes →
    ¬ (outputMarker (Store.stepId (Store.jobId run key) idx)).toList <:+: file.toList →
    Reported (wrapped script (Store.stepId (Store.jobId run key) idx) file) out →
    Told script.writes file (splitOutputs out (Store.stepId (Store.jobId run key) idx)) := by
  intro h
  have htold := h "018bcfe56800-00000000" "build" 0 versionScript "version=1.2.3\n" _
    (by decide) (by decide) (by decide) (by decide)
    (by decide) Reported.split
  have houtputs : Json.Obj.get (declaredBy "version=1.2.3\n") "warning" = none := by decide
  rw [← htold.1] at houtputs
  revert houtputs
  decide

end Result

end HeyoCi
