import HeyoCi.Ids.Operations
import HeyoCi.Lib.Lexer
import HeyoCi.Steps.Collect
import HeyoCi.Submit.Objects

/-!
# The scripts of a job

What the scripts of a checkout, a step and an artifact take from a workflow they take in single quotes.

* `checkoutScript`, `wrapCommand`, `uploadScript`, `verifyScript`: the scripts, beside `collectScript`;
* `Script`, `Script.template`, `Script.value`: a script, and the same with places for its values;
* **`quoting_exact`**: a value in quotes is one word, and the tokens of a script do not depend on its
  values but for the letters of their words.
-/

namespace HeyoCi

open Shell

/-! ## The scripts -/

/-- `shell_single_quote`: single-quote a value for `sh`. -/
def shellSingleQuote (s : String) : String :=
  String.ofList ('\'' :: (s.toList.flatMap fun c =>
    if c = '\'' then ['\'', '\\', '\'', '\''] else [c]) ++ ['\''])

inductive SourceFormat where
  | tarGz
  | gitBundle
  deriving Repr, DecidableEq

/-- Where the source is uploaded to. -/
def remotePath (format : SourceFormat) (workdir : String) : String :=
  let wd := String.ofList (Text.trimEndMatches "/" workdir.toList)
  match format with
  | .tarGz => s!"{wd}/.ci-source.tar.gz"
  | .gitBundle => s!"{wd}/.ci-source.bundle"

/-- Where a bundle is cloned to. -/
def clonePath (workdir : String) : String :=
  let wd := String.ofList (Text.trimEndMatches "/" workdir.toList)
  s!"{wd}/.ci-clone"

def tarScript (wd src : String) : String :=
  s!"set -e; mkdir -p {wd}; find {wd} -mindepth 1 -maxdepth 1 " ++
    "! -name .ci-source.tar.gz -exec rm -rf \x7b\x7d +; " ++
    s!"tar -xzf {src} -C {wd}; rm -f {src}; ls -a {wd} | head -50"

def bundleScript (wd tmp src : String) : String :=
  "set -e; command -v git >/dev/null 2>&1 || \x7b echo '[ci] this run submitted " ++
    "a git bundle, but the guest image has no git. Add it to the vm setup_hooks, or submit with " ++
    "`git submit --archive`.' >&2; exit 127; \x7d; " ++
    s!"mkdir -p {wd}; rm -rf {tmp}; " ++
    s!"git -c core.hooksPath=/nonexistent clone --quiet {src} {tmp}; " ++
    s!"find {wd} -mindepth 1 -maxdepth 1 ! -name .ci-clone ! -name .ci-source.bundle " ++
    "-exec rm -rf \x7b\x7d +; " ++
    s!"tar -C {tmp} -cf - . | tar -C {wd} -xf -; rm -rf {tmp} {src}; " ++
    s!"git -C {wd} log --oneline -1; ls -a {wd} | head -50"

/-- What a checkout has the guest run when the source is there. -/
def checkoutScript (format : SourceFormat) (workdir : String) : String := match format with
  | .tarGz => tarScript (shellQuote workdir) (shellQuote (remotePath format workdir))
  | .gitBundle => bundleScript (shellQuote workdir) (shellQuote (clonePath workdir))
      (shellQuote (remotePath format workdir))

/-- A step's script behind `cd`, with its outputs. -/
def wrapScript (script cd stepId marker : String) : String :=
  "export CI_OUTPUT=\"$\x7bCI_OUTPUT:-/tmp/ci-output-" ++ stepId ++ "\x7d\"; " ++
    ": > \"$CI_OUTPUT\"; " ++ cd ++ "\x7b " ++ script ++ "\n\x7d; __ci_rc=$?; " ++
    s!"printf '\\n%s\\n' '{marker}'; cat \"$CI_OUTPUT\" 2>/dev/null; " ++ "exit $__ci_rc"

/-- `wrap_command`: a step without a working directory runs in that of the job. -/
def wrapCommand (script : String) (workingDirectory : Option String) (stepId defaultWd : String) :
    String :=
  wrapScript script s!"cd {shellQuote (workingDirectory.getD defaultWd)} && " stepId
    (outputMarker stepId)

def chunkScript (quoted chunk redirect : String) : String :=
  s!"mkdir -p \"$(dirname {quoted})\" && printf %s '{chunk}' | base64 -d {redirect} {quoted}"

/-- The script of a chunk of an upload. The first one truncates, the rest append. -/
def uploadScript (i : Nat) (chunk : List Char) (path : String) : String :=
  chunkScript (shellSingleQuote path) (String.ofList chunk) (if i = 0 then ">" else ">>")

/-- The script that hashes what was uploaded. -/
def verifyScript (path : String) : String := s!"sha256sum {shellSingleQuote path}"

/-! ## Scripts with places -/

/-- What stands in single quotes. -/
inductive Hole where
  | workdir
  | source
  | scratch
  | path
  deriving Repr, DecidableEq

inductive Script where
  | checkout (format : SourceFormat) (workdir : String)
  | step (script : String) (workingDirectory : Option String) (stepId defaultWd : String)
  | artifact (workdir path : String)
  | upload (i : Nat) (chunk : List Char) (path : String)
  | verify (path : String)

namespace Script

def text : Script → String
  | checkout format workdir => checkoutScript format workdir
  | step script workingDirectory stepId defaultWd =>
    wrapCommand script workingDirectory stepId defaultWd
  | artifact workdir path => collectScript workdir path
  | upload i chunk path => uploadScript i chunk path
  | verify path => verifyScript path

/-- The values, by their places. -/
def value : Script → Hole → List Char
  | checkout _ workdir, .workdir | artifact workdir _, .workdir => workdir.toList
  | checkout format workdir, .source => (remotePath format workdir).toList
  | checkout _ workdir, .scratch => (clonePath workdir).toList
  | step _ workingDirectory _ defaultWd, .workdir => (workingDirectory.getD defaultWd).toList
  | artifact _ path, .path | upload _ _ path, .path | verify path, .path => path.toList
  | _, _ => []

def letters (s : String) : List (Sym Hole) := s.toList.map .char

def place (p : Hole) : List (Sym Hole) := [.hole p]

/-! Each script with its values taken out. -/

def tarTemplate : List (Sym Hole) :=
  letters "set -e; mkdir -p " ++ place .workdir ++ letters "; find " ++ place .workdir ++
    letters " -mindepth 1 -maxdepth 1 " ++
    letters "! -name .ci-source.tar.gz -exec rm -rf \x7b\x7d +; " ++
    letters "tar -xzf " ++ place .source ++ letters " -C " ++ place .workdir ++
    letters "; rm -f " ++ place .source ++ letters "; ls -a " ++ place .workdir ++
    letters " | head -50"

def bundleTemplate : List (Sym Hole) :=
  letters "set -e; command -v git >/dev/null 2>&1 || \x7b echo '[ci] this run submitted " ++
    letters "a git bundle, but the guest image has no git. Add it to the vm setup_hooks, or submit with " ++
    letters "`git submit --archive`.' >&2; exit 127; \x7d; " ++
    letters "mkdir -p " ++ place .workdir ++ letters "; rm -rf " ++ place .scratch ++ letters "; " ++
    letters "git -c core.hooksPath=/nonexistent clone --quiet " ++ place .source ++ letters " " ++
    place .scratch ++ letters "; " ++
    letters "find " ++ place .workdir ++
    letters " -mindepth 1 -maxdepth 1 ! -name .ci-clone ! -name .ci-source.bundle " ++
    letters "-exec rm -rf \x7b\x7d +; " ++
    letters "tar -C " ++ place .scratch ++ letters " -cf - . | tar -C " ++ place .workdir ++
    letters " -xf -; rm -rf " ++ place .scratch ++ letters " " ++ place .source ++ letters "; " ++
    letters "git -C " ++ place .workdir ++ letters " log --oneline -1; ls -a " ++
    place .workdir ++ letters " | head -50"

def stepTemplate (script stepId : String) : List (Sym Hole) :=
  letters "export CI_OUTPUT=\"$\x7bCI_OUTPUT:-/tmp/ci-output-" ++ letters stepId ++
    letters "\x7d\"; " ++ letters ": > \"$CI_OUTPUT\"; " ++
    letters "cd " ++ place .workdir ++ letters " && " ++
    letters "\x7b " ++ letters script ++ letters "\n\x7d; __ci_rc=$?; " ++
    letters "printf '\\n%s\\n' '" ++ letters (outputMarker stepId) ++
    letters "'; cat \"$CI_OUTPUT\" 2>/dev/null; " ++ letters "exit $__ci_rc"

def collectTemplate : List (Sym Hole) :=
  letters "cd " ++ place .workdir ++ letters " && tar -czf - " ++ place .path ++
    letters " | base64; echo"

def uploadTemplate (i : Nat) (chunk : List Char) : List (Sym Hole) :=
  letters "mkdir -p \"$(dirname " ++ place .path ++ letters ")\" && printf %s '" ++
    chunk.map .char ++ letters "' | base64 -d " ++ letters (if i = 0 then ">" else ">>") ++
    letters " " ++ place .path

def verifyTemplate : List (Sym Hole) := letters "sha256sum " ++ place .path

def template : Script → List (Sym Hole)
  | checkout .tarGz _ => tarTemplate
  | checkout .gitBundle _ => bundleTemplate
  | step script _ stepId _ => stepTemplate script stepId
  | artifact _ _ => collectTemplate
  | upload i chunk _ => uploadTemplate i chunk
  | verify _ => verifyTemplate

/-- What else is put into a script is made of letters that mean nothing there: the letters of ids, and
text for single quotes. -/
def Plain : Script → Prop
  | step _ _ stepId _ => ∀ c ∈ stepId.toList, GuestOp.isIdChar c = true
  | upload _ chunk _ => '\'' ∉ chunk
  | _ => True

theorem toList_shellQuote (s : String) : (shellQuote s).toList = quote s.toList := String.toList_ofList

theorem toList_shellSingleQuote (s : String) : (shellSingleQuote s).toList = quote s.toList :=
  String.toList_ofList

theorem fill_letters (value : Hole → List Char) (s : String) : fill value (letters s) = s.toList :=
  fill_chars s.toList

theorem fill_place (value : Hole → List Char) (p : Hole) : fill value (place p) = quote (value p) :=
  fill_hole p

/-- **A script is its template with the quoted values.** -/
theorem toList_text (sc : Script) : sc.text.toList = fill sc.value sc.template := by
  have hstring : ∀ s : String, toString s = s := fun s => rfl
  -- the strings are unfolded as they stand: their equations are too long to compute
  cases sc with
  | checkout format workdir =>
    cases format with
    | tarGz =>
      change (tarScript _ _).toList = fill _ tarTemplate
      delta tarScript tarTemplate
      simp only [value, hstring, fill_append, fill_letters, fill_place, toList_shellQuote,
        String.toList_append, List.append_assoc]
    | gitBundle =>
      change (bundleScript _ _ _).toList = fill _ bundleTemplate
      delta bundleScript bundleTemplate
      simp only [value, hstring, fill_append, fill_letters, fill_place, toList_shellQuote,
        String.toList_append, List.append_assoc]
  | step script workingDirectory stepId defaultWd =>
    change (wrapScript _ _ _ _).toList = fill _ (stepTemplate script stepId)
    delta wrapScript stepTemplate
    simp only [value, hstring, fill_append, fill_letters, fill_place, toList_shellQuote,
      String.toList_append, List.append_assoc]
  | artifact workdir path =>
    change (collectScript _ _).toList = fill _ collectTemplate
    delta collectScript collectTemplate
    simp only [value, hstring, fill_append, fill_letters, fill_place, toList_shellQuote,
      String.toList_append, List.append_assoc]
  | upload i chunk path =>
    change (chunkScript _ _ _).toList = fill _ (uploadTemplate i chunk)
    delta chunkScript uploadTemplate
    simp only [value, hstring, fill_append, fill_letters, fill_place, fill_chars,
      toList_shellSingleQuote, String.toList_append, String.toList_ofList, List.append_assoc]
  | verify path =>
    change (verifyScript _).toList = fill _ verifyTemplate
    delta verifyScript verifyTemplate
    simp only [value, hstring, fill_append, fill_letters, fill_place, toList_shellSingleQuote,
      String.toList_append]

/-! ## Their places -/

theorem run_letters (l : Lexer Hole) (s : String) : l.run (letters s) = l.text s.toList :=
  l.run_chars s.toList

/-- The letters of a text that is written out. -/
theorem letters_ofList (cs : List Char) : letters (String.ofList cs) = cs.map .char := by
  rw [letters, String.toList_ofList]

theorem placed_letters (l : Lexer Hole) (s : String) : l.placed (letters s) = true :=
  l.placed_chars s.toList

theorem placed_place (l : Lexer Hole) (p : Hole) : l.placed (place p) = l.isOpen := Bool.and_true _

set_option maxRecDepth 8000 in
theorem placed_tarTemplate : (Lexer.start : Lexer Hole).placed tarTemplate = true := by
  delta tarTemplate place
  repeat rw [letters_ofList]
  rfl

set_option maxRecDepth 20000 in
theorem placed_bundleTemplate : (Lexer.start : Lexer Hole).placed bundleTemplate = true := by
  delta bundleTemplate place
  repeat rw [letters_ofList]
  rfl

/-- Letters in the place of a directory, and the other places as they are. -/
def inScratch (ps : List (Letter Hole)) (p : Hole) : List (Letter Hole) :=
  if p = .scratch then ps else [.hole p]

/-- A word of any letters is one with a place, with the letters in it. -/
theorem text_inWord {l : Lexer Hole} (ps : List (Letter Hole)) (hl : l.subst (inScratch ps) = l)
    (mode : Mode) (cs : List Char) :
    (l.inWord mode ps).text cs = ((l.inWord mode [.hole .scratch]).text cs).subst (inScratch ps) := by
  have hword : (l.inWord mode [.hole .scratch]).subst (inScratch ps) = l.inWord mode ps := by
    change (l.subst (inScratch ps)).inWord mode (inScratch ps .scratch ++ []) = _
    rw [hl, List.append_nil, inScratch, if_pos rfl]
  rw [Lexer.subst_text, hword]

theorem isOpen_inWord {l : Lexer Hole} {mode : Mode} {cs : List Char} (ps : List (Letter Hole))
    (hl : l.subst (inScratch ps) = l)
    (h : ((l.inWord mode [.hole .scratch]).text cs).isOpen = true) :
    ((l.inWord mode ps).text cs).isOpen = true := by
  rw [text_inWord ps hl]
  exact h

/-- The id is a part of a file name in double quotes. -/
theorem placed_stepTemplate (script : String) {stepId : String}
    (hid : ∀ c ∈ stepId.toList, GuestOp.isIdChar c = true) :
    (Lexer.start : Lexer Hole).placed (stepTemplate script stepId) = true := by
  have hsoft : ∀ c ∈ stepId.toList, ['"', '\\', '$', '\x60', '}'].contains c = false := by
    intro c hc
    rw [Bool.eq_false_iff, ne_eq, List.contains_iff_mem]
    intro hmem
    have hall : (['"', '\\', '$', '\x60', '}'].all fun c => !GuestOp.isIdChar c) = true := by decide
    have hnot := List.all_eq_true.mp hall c hmem
    rw [hid c hc] at hnot
    cases hnot
  have hbefore : Lexer.start.text "export CI_OUTPUT=\"$\x7bCI_OUTPUT:-/tmp/ci-output-".toList =
      (Lexer.inWord ⟨.normal, true, [.brace true], .none, [.word false ("export".toList.map .plain)]⟩
        .normal ("CI_OUTPUT=".toList.map .plain ++
          "$\x7bCI_OUTPUT:-/tmp/ci-output-".toList.map .soft) : Lexer Hole) := by
    rfl
  delta stepTemplate
  simp only [Lexer.placed_append, Lexer.run_append, placed_letters, run_letters, placed_place,
    Bool.true_and, Bool.and_true]
  rw [hbefore, Lexer.text_soft rfl _ hsoft, ← Lexer.text_append, ← Lexer.text_append]
  exact isOpen_inWord _ rfl rfl

/-- The tokens in front of a chunk. -/
def beforeChunk : List (Tok Hole) :=
  [.word false ("mkdir".toList.map .plain), .word false ("-p".toList.map .plain), .enter true [],
    .word false ("dirname".toList.map .plain), .word true [.hole .path], .leave, .word true [],
    .op ['&', '&'], .word false ("printf".toList.map .plain), .word false ("%s".toList.map .plain)]

theorem text_beforeChunk : ((Lexer.start.text "mkdir -p \"$(dirname ".toList).run (place .path)).text
    ")\" && printf %s '".toList =
      (Lexer.inWord ⟨.normal, false, [], .none, beforeChunk⟩ .single [] : Lexer Hole) := by
  rfl

/-- The chunk is in single quotes of its own. -/
theorem placed_uploadTemplate (i : Nat) {chunk : List Char} (hchunk : '\'' ∉ chunk) :
    (Lexer.start : Lexer Hole).placed (uploadTemplate i chunk) = true := by
  have hfirst : (Lexer.start.text "mkdir -p \"$(dirname ".toList : Lexer Hole).isOpen = true := by rfl
  delta uploadTemplate
  simp only [Lexer.placed_append, Lexer.run_append, placed_letters, run_letters, placed_place,
    Lexer.placed_chars, Lexer.run_chars, Bool.true_and, Bool.and_true]
  rw [hfirst, text_beforeChunk, Lexer.text_single _ hchunk, Bool.true_and, ← Lexer.text_append,
    ← Lexer.text_append]
  by_cases hi : i = 0
  · rw [if_pos hi]
    exact isOpen_inWord _ rfl rfl
  · rw [if_neg hi]
    exact isOpen_inWord _ rfl rfl

theorem placed_collectTemplate : (Lexer.start : Lexer Hole).placed collectTemplate = true := by decide

theorem placed_verifyTemplate : (Lexer.start : Lexer Hole).placed verifyTemplate = true := by decide

theorem placed_template {sc : Script} (h : sc.Plain) :
    (Lexer.start : Lexer Hole).placed sc.template = true := by
  cases sc with
  | checkout format workdir =>
    cases format with
    | tarGz => exact placed_tarTemplate
    | gitBundle => exact placed_bundleTemplate
  | step script workingDirectory stepId defaultWd => exact placed_stepTemplate script h
  | artifact workdir path => exact placed_collectTemplate
  | upload i chunk path => exact placed_uploadTemplate i h
  | verify path => exact placed_verifyTemplate

/-- The tokens that the shell of the guest reads. -/
def tokens (sc : Script) : List (Tok Empty) := (Lexer.start.text sc.text.toList).tokens

/-- **The tokens of a script are those of its template, with the values as letters of their words.** -/
theorem tokens_eq {sc : Script} (h : sc.Plain) :
    sc.tokens = (Lexer.start.run sc.template).tokens.map (Tok.subst (inQuotes sc.value)) := by
  have hread : (Lexer.start : Lexer Empty).text (fill sc.value sc.template) =
      (Lexer.start.run sc.template).subst (inQuotes sc.value) := Lexer.text_fill (placed_template h)
  rw [tokens, toList_text, hread, Lexer.tokens, Lexer.tokens, List.map_append, ← Lexer.toks_subst]
  rfl

/-- Values make no tokens and end none. -/
theorem bare_tokens {sc : Script} (h : sc.Plain) :
    (sc.tokens.map Tok.bare : List (Tok Empty)) =
      (Lexer.start.run sc.template).tokens.map Tok.bare := by
  rw [tokens_eq h, List.map_map]
  exact List.map_congr_left fun t _ => Tok.bare_subst t

/-- The ids that steps are given are plain. -/
theorem plain_step {run key : String} (hrun : isRunId run = true) (hkey : isSubjectToken key = true)
    (script : String) (workingDirectory : Option String) (idx : Nat) (defaultWd : String) :
    (step script workingDirectory (Store.stepId (Store.jobId run key) idx) defaultWd).Plain :=
  isIdChar_id hrun hkey (.step idx)

end Script

/-! ## Quoting is exact -/

/-- A quoted value is one word, at the start of one and in front of a break or at the end of the text. -/
structure QuotesExactly (quoted : String → String) : Prop where
  break_after : ∀ (s : String) (l : Lexer Empty), l.isOpen = true → l.isBetween = true →
    ∀ (c : Char) (rest : List Char), Lexer.isBreak c = true →
      l.text ((quoted s).toList ++ c :: rest) =
        Lexer.text { l with cur := .none, done := l.tokens ++ [.word true (s.toList.map .quoted)] }
          (c :: rest)
  end_after : ∀ (s : String) (l : Lexer Empty), l.isOpen = true → l.isBetween = true →
    (l.text (quoted s).toList).tokens = l.tokens ++ [.word true (s.toList.map .quoted)]

theorem quotesExactly {quoted : String → String} (h : ∀ s, (quoted s).toList = quote s.toList) :
    QuotesExactly quoted where
  break_after s l hopen hbetween c rest hc := by
    rw [h]
    exact Lexer.text_quote_break hopen hbetween hc s.toList rest
  end_after s l hopen hbetween := by
    rw [h]
    exact Lexer.tokens_text_quote hopen hbetween s.toList

/-- **Quoting is exact.** What is quoted is one word, and the tokens of a script are those of its template
with the values as letters of their words: other values make no other tokens. -/
theorem quoting_exact :
    QuotesExactly shellQuote ∧ QuotesExactly shellSingleQuote ∧
    ∀ sc : Script, sc.Plain →
      sc.tokens = (Lexer.start.run sc.template).tokens.map (Tok.subst (inQuotes sc.value)) ∧
      ∀ sc' : Script, sc'.Plain → sc'.template = sc.template →
        (sc'.tokens.map Tok.bare : List (Tok Empty)) = sc.tokens.map Tok.bare := by
  refine ⟨quotesExactly Script.toList_shellQuote, quotesExactly Script.toList_shellSingleQuote,
    fun sc h => ⟨Script.tokens_eq h, fun sc' h' htemplate => ?_⟩⟩
  rw [Script.bare_tokens h', Script.bare_tokens h, htemplate]

/-- A directory that ends the quotes, ends the command and begins another one, as one word. -/
theorem hostile_directory_quoted :
    (Lexer.start.text ("cd ".toList ++ ((shellQuote "a'; rm b").toList ++ " && x".toList))).tokens =
      ([.word false ("cd".toList.map .plain), .word true ("a'; rm b".toList.map .quoted),
        .op ['&', '&'], .word false (['x'].map .plain)] : List (Tok Empty)) ∧
    ((Script.artifact "a'; rm b" "c").tokens.map Tok.bare : List (Tok Empty)) =
      (Script.artifact "w" "c").tokens.map Tok.bare := by
  obtain ⟨hquote, -, hscripts⟩ := quoting_exact
  refine ⟨?_, (hscripts (.artifact "w" "c") trivial).2 (.artifact "a'; rm b" "c") trivial rfl⟩
  rw [Lexer.text_append]
  have hword := hquote.break_after "a'; rm b" (Lexer.start.text "cd ".toList) rfl rfl ' '
    "&& x".toList rfl
  exact (congrArg Lexer.tokens hword).trans (by decide)

end HeyoCi
