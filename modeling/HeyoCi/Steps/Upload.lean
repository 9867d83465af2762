import HeyoCi.Image.Context
import HeyoCi.Lib.Base64
import HeyoCi.Lib.Runs
import HeyoCi.Steps.Scripts
import HeyoCi.Warm.Guest

/-!
# Uploading bytes

A payload is written into a file of the guest as base64, in chunks, with one command for each.

* `uploadTexts`: the chunks; **`uploadTexts_eq`**: they are the texts of pieces of the payload;
  `length_uploadTexts`: how many there are;
* `UploadGuest`, `uploadLoop`, `uploadBytes`: the commands, and the hash that is compared behind them;
* `UploadGuest.Decodes`, `UploadGuest.Runs`: a script that succeeds has done what it says; every script
  succeeds;
* **`upload_written`**: where every script succeeds the file is the payload; `uploadBytes_written`;
* **`upload_exact`**: and so it is whatever an earlier attempt has left;
* `shellGuest`: a guest that reads the scripts as a shell does; `runs_shellGuest`.
-/

namespace HeyoCi

open Shell

/-! ## The chunks -/

/-- The chunks of an upload. An empty payload still has to create the file. -/
def uploadTexts (bytes : Bytes) : List (List Char) :=
  let encoded := Base64.encode bytes
  if encoded.isEmpty then [[]] else Base64.chunks uploadChunk encoded

/-- The bytes of a chunk, in full. -/
def uploadPart : Nat := 18 * 1024

/-- The pieces of a payload that are the chunks. -/
def uploadParts (bytes : Bytes) : List Bytes :=
  if bytes = [] then [[]] else Base64.chunks uploadPart bytes

theorem encode_isEmpty (bytes : Bytes) : (Base64.encode bytes).isEmpty = true ↔ bytes = [] := by
  rw [List.isEmpty_iff, ← List.length_eq_zero_iff, Base64.length_encode, ← List.length_eq_zero_iff]
  omega

/-- **Each chunk is the text of a piece of the payload.** -/
theorem uploadTexts_eq (bytes : Bytes) :
    uploadTexts bytes = (uploadParts bytes).map Base64.encode := by
  have hpieces : Base64.chunks uploadChunk (Base64.encode bytes) =
      (Base64.chunks uploadPart bytes).map Base64.encode :=
    Base64.chunks_encode (show 0 < 6 * 1024 by decide) bytes
  by_cases hempty : bytes = []
  · subst hempty
    rfl
  · rw [uploadTexts, if_neg (mt (encode_isEmpty bytes).mp hempty), uploadParts, if_neg hempty, hpieces]

theorem length_uploadTexts (bytes : Bytes) :
    (uploadTexts bytes).length = uploadChunks bytes.length := by
  have hzero : (Base64.encode bytes).isEmpty = true ↔ 4 * ((bytes.length + 2) / 3) = 0 := by
    rw [List.isEmpty_iff, ← List.length_eq_zero_iff, Base64.length_encode]
  unfold uploadTexts uploadChunks
  simp only [hzero, apply_ite List.length, Base64.length_chunks, Base64.length_encode]
  rfl

/-- The first chunks are the beginning of the payload. -/
theorem flatten_take_uploadParts (bytes : Bytes) (k : Nat) :
    ((uploadParts bytes).take k).flatten = bytes.take (uploadPart * k) := by
  by_cases hempty : bytes = []
  · subst hempty
    cases k with
    | zero => rfl
    | succ k =>
      rw [uploadParts, if_pos rfl, List.take_succ_cons, List.take_nil, List.take_nil]
      rfl
  · rw [uploadParts, if_neg hempty, Base64.flatten_take_chunks (by decide)]

theorem flatten_uploadParts (bytes : Bytes) : (uploadParts bytes).flatten = bytes := by
  by_cases hempty : bytes = []
  · subst hempty
    rfl
  · rw [uploadParts, if_neg hempty, Base64.flatten_chunks (by decide)]

theorem uploadParts_ne_nil (bytes : Bytes) : uploadParts bytes ≠ [] := by
  intro hnil
  have hbytes := flatten_uploadParts bytes
  rw [hnil] at hbytes
  rw [← hbytes] at hnil
  cases hnil

/-! ## The commands -/

/-- How an upload fails. -/
inductive UploadError where
  | exec (e : String)
  | uploadFailed (sandbox path : String) (chunk of : Nat) (detail : String)
  | uploadCorrupted (sandbox path expected actual : String)
  deriving Repr, DecidableEq

/-- A guest, as uploads see it. -/
structure UploadGuest (G : Type) where
  /-- A command, by its operation id, its script, its environment and its timeout. -/
  exec : String → String → List (String × String) → Nat → G → Except String ExecOutput × G
  content : G → String → Option Bytes

/-- The first hash in what a command wrote. -/
def reportedHash (combined : String) : Option String :=
  ((Runs.runs (fun c => !Text.isWhitespace c) combined.toList).find? fun w =>
    w.length = 64 && w.all fun c => c.isDigit || ('a' ≤ c && c ≤ 'f') || ('A' ≤ c && c ≤ 'F')).map
      String.ofList

section Upload

variable {G : Type} (guest : UploadGuest G) (sandbox operationPrefix path : String)

/-- The loop over the chunks, from the `i`-th one of so many. -/
def uploadLoop (count : Nat) : Nat → List (List Char) → G → Except UploadError Unit × G
  | _, [], g => (.ok (), g)
  | i, chunk :: chunks, g =>
    match guest.exec s!"{operationPrefix}.u{i}" (uploadScript i chunk path) [] 120 g with
    | (.error e, g) => (.error (.exec e), g)
    | (.ok out, g) =>
      if out.succeeded then uploadLoop count (i + 1) chunks g
      else (.error (.uploadFailed sandbox path i count out.combined), g)

/-- What is made of the hash that the guest reports. An upload that cannot be verified stands. -/
def verifyUpload (expected : String) : Except String ExecOutput → Except UploadError Unit
  | .error e => .error (.exec e)
  | .ok out =>
    if !out.succeeded then
      if out.exitCode = 127 then .ok ()
      else .error (.uploadCorrupted sandbox path expected
        s!"no hash; sha256sum failed with: {Text.trim out.combined}")
    else match reportedHash out.combined with
      | some hash => if hash = expected then .ok ()
          else .error (.uploadCorrupted sandbox path expected hash)
      | none => .ok ()

/-- `upload_bytes`. -/
def uploadBytes (sha256 : Bytes → String) (bytes : Bytes) (g : G) : Except UploadError Unit × G :=
  let chunks := uploadTexts bytes
  match uploadLoop guest sandbox operationPrefix path chunks.length 0 chunks g with
  | (.error e, g) => (.error e, g)
  | (.ok (), g) =>
    let (out, g) := guest.exec s!"{operationPrefix}.uv" (verifyScript path) [] 120 g
    (verifyUpload sandbox path (sha256 bytes) out, g)

end Upload

/-! ## What the guest does -/

/-- A script that succeeds has decoded its chunk and written or appended it, as its redirection says. -/
structure UploadGuest.Decodes {G : Type} (guest : UploadGuest G) : Prop where
  truncates : ∀ {id path : String} {chunk : List Char} {bs : Bytes} {g g' : G} {out : ExecOutput},
    Base64.decode chunk = some bs →
    guest.exec id (chunkScript (shellSingleQuote path) (String.ofList chunk) ">") [] 120 g =
      (.ok out, g') → out.succeeded = true → guest.content g' path = some bs
  appends : ∀ {id path : String} {chunk : List Char} {bs : Bytes} {g g' : G} {out : ExecOutput},
    Base64.decode chunk = some bs →
    guest.exec id (chunkScript (shellSingleQuote path) (String.ofList chunk) ">>") [] 120 g =
      (.ok out, g') → out.succeeded = true →
    guest.content g' path = some ((guest.content g path).getD [] ++ bs)

/-- And every script of a chunk that can be decoded succeeds. -/
structure UploadGuest.Runs {G : Type} (guest : UploadGuest G) : Prop extends guest.Decodes where
  succeeds : ∀ (id path : String) (i : Nat) {chunk : List Char} {bs : Bytes} (g : G),
    Base64.decode chunk = some bs → ∃ (out : ExecOutput) (g' : G),
      guest.exec id (uploadScript i chunk path) [] 120 g = (.ok out, g') ∧ out.succeeded = true

section Run

variable {G : Type} {guest : UploadGuest G} {sandbox operationPrefix path : String} {count : Nat}

/-- What one command leaves. -/
theorem content_exec (h : guest.Decodes) {id : String} {i : Nat} {part : Bytes} {g g' : G}
    {out : ExecOutput}
    (hexec : guest.exec id (uploadScript i (Base64.encode part) path) [] 120 g = (.ok out, g'))
    (hout : out.succeeded = true) : guest.content g' path =
      some (if i = 0 then part else (guest.content g path).getD [] ++ part) := by
  have hpart : Base64.decode (Base64.encode part) = some part := Base64.decode_eq_some.mpr rfl
  rw [uploadScript] at hexec
  by_cases hi : i = 0
  · rw [if_pos hi] at hexec ⊢
    exact h.truncates hpart hexec hout
  · rw [if_neg hi] at hexec ⊢
    exact h.appends hpart hexec hout

/-- Every way the loop goes past a chunk. -/
theorem uploadLoop_cons_ok {i : Nat} {chunk : List Char} {chunks : List (List Char)} {g g' : G}
    (h : uploadLoop guest sandbox operationPrefix path count i (chunk :: chunks) g = (.ok (), g')) :
    ∃ (out : ExecOutput) (g₁ : G),
      guest.exec s!"{operationPrefix}.u{i}" (uploadScript i chunk path) [] 120 g = (.ok out, g₁) ∧
      out.succeeded = true ∧
      uploadLoop guest sandbox operationPrefix path count (i + 1) chunks g₁ = (.ok (), g') := by
  rw [uploadLoop] at h
  split at h
  · cases h
  · rename_i out g₁ hexec
    split_ifs at h with hout
    · exact ⟨out, g₁, hexec, hout, h⟩
    · cases h

/-- What is behind the first chunk is appended. -/
theorem content_uploadLoop (h : guest.Decodes) {i : Nat} (hi : i ≠ 0) {parts : List Bytes} {g g' : G}
    (hrun : uploadLoop guest sandbox operationPrefix path count i (parts.map Base64.encode) g =
      (.ok (), g')) {before : Bytes} (hbefore : guest.content g path = some before) :
    guest.content g' path = some (before ++ parts.flatten) := by
  induction parts generalizing i g before with
  | nil =>
    cases hrun
    rw [hbefore, List.flatten_nil, List.append_nil]
  | cons part parts ih =>
    obtain ⟨out, g₁, hexec, hout, hrest⟩ := uploadLoop_cons_ok hrun
    have hnext : guest.content g₁ path = some (before ++ part) := by
      rw [content_exec h hexec hout, if_neg hi, hbefore, Option.getD_some]
    rw [ih (Nat.succ_ne_zero i) hrest hnext, List.append_assoc, List.flatten_cons]

/-- The first chunk replaces what there was. -/
theorem content_uploadLoop_zero (h : guest.Decodes) {parts : List Bytes} (hne : parts ≠ []) {g g' : G}
    (hrun : uploadLoop guest sandbox operationPrefix path count 0 (parts.map Base64.encode) g =
      (.ok (), g')) : guest.content g' path = some parts.flatten := by
  cases parts with
  | nil => exact absurd rfl hne
  | cons part parts =>
    obtain ⟨out, g₁, hexec, hout, hrest⟩ := uploadLoop_cons_ok hrun
    have hfirst : guest.content g₁ path = some part := by
      rw [content_exec h hexec hout, if_pos rfl]
    exact content_uploadLoop h (Nat.succ_ne_zero 0) hrest hfirst

variable (sandbox operationPrefix path count) in
/-- The loop ends where every script succeeds. -/
theorem uploadLoop_ok (h : guest.Runs) (i : Nat) (parts : List Bytes) (g : G) :
    ∃ g', uploadLoop guest sandbox operationPrefix path count i (parts.map Base64.encode) g =
      (.ok (), g') := by
  induction parts generalizing i g with
  | nil => exact ⟨g, rfl⟩
  | cons part parts ih =>
    obtain ⟨out, g₁, hexec, hout⟩ := h.succeeds s!"{operationPrefix}.u{i}" path i g
      (Base64.decode_eq_some.mpr (rfl : Base64.encode part = _))
    obtain ⟨g', hrest⟩ := ih (i + 1) g₁
    refine ⟨g', ?_⟩
    rw [List.map_cons, uploadLoop, hexec]
    change (if out.succeeded = true then _ else _) = _
    rw [if_pos hout, hrest]

/-- **Where every script succeeds the file is the payload**, whatever it was before. -/
theorem upload_written (h : guest.Decodes) {bytes : Bytes} {g g' : G}
    (hrun : uploadLoop guest sandbox operationPrefix path count 0 (uploadTexts bytes) g = (.ok (), g')) :
    guest.content g' path = some bytes := by
  rw [uploadTexts_eq] at hrun
  rw [content_uploadLoop_zero h (uploadParts_ne_nil bytes) hrun, flatten_uploadParts]

/-- An upload that succeeds has written the payload before it is verified. -/
theorem uploadBytes_written (h : guest.Decodes) {sha256 : Bytes → String} {bytes : Bytes} {g g' : G}
    (hrun : uploadBytes guest sandbox operationPrefix path sha256 bytes g = (.ok (), g')) :
    ∃ g₁, guest.content g₁ path = some bytes ∧
      g' = (guest.exec s!"{operationPrefix}.uv" (verifyScript path) [] 120 g₁).2 := by
  simp only [uploadBytes] at hrun
  split at hrun
  · cases hrun
  · rename_i g₁ hloop
    exact ⟨g₁, upload_written h hloop, (congrArg Prod.snd hrun).symm⟩

end Run

/-- **Uploads reassemble the bytes.** Each chunk is read by itself, and together they are the payload. From
any state the scripts succeed and the file is the payload; behind the first of them it is its beginning, and
an upload that comes then leaves the payload, too. -/
theorem upload_exact {G : Type} (guest : UploadGuest G) (h : guest.Runs)
    (sandbox operationPrefix path : String) (bytes : Bytes) :
    (∃ parts : List Bytes, (uploadTexts bytes).mapM Base64.decode = some parts ∧
      parts.flatten = bytes) ∧
    (∀ g, ∃ g', uploadLoop guest sandbox operationPrefix path (uploadTexts bytes).length 0
        (uploadTexts bytes) g = (.ok (), g') ∧ guest.content g' path = some bytes) ∧
    ∀ g k, 0 < k → ∃ g₁ g',
      uploadLoop guest sandbox operationPrefix path (uploadTexts bytes).length 0
        ((uploadTexts bytes).take k) g = (.ok (), g₁) ∧
      guest.content g₁ path = some (bytes.take (uploadPart * k)) ∧
      uploadLoop guest sandbox operationPrefix path (uploadTexts bytes).length 0
        (uploadTexts bytes) g₁ = (.ok (), g') ∧
      guest.content g' path = some bytes := by
  have hall : ∀ g, ∃ g', uploadLoop guest sandbox operationPrefix path (uploadTexts bytes).length 0
      (uploadTexts bytes) g = (.ok (), g') ∧ guest.content g' path = some bytes := by
    intro g
    obtain ⟨g', hrun⟩ := uploadLoop_ok sandbox operationPrefix path (uploadTexts bytes).length h 0
      (uploadParts bytes) g
    rw [← uploadTexts_eq] at hrun
    exact ⟨g', hrun, upload_written h.toDecodes hrun⟩
  refine ⟨⟨uploadParts bytes, ?_, flatten_uploadParts bytes⟩, hall, fun g k hk => ?_⟩
  · rw [uploadTexts_eq]
    exact Base64.mapM_decode _
  · obtain ⟨g₁, hrun⟩ := uploadLoop_ok sandbox operationPrefix path (uploadTexts bytes).length h 0
      ((uploadParts bytes).take k) g
    have hne : (uploadParts bytes).take k ≠ [] := by
      rw [ne_eq, List.take_eq_nil_iff, not_or]
      exact ⟨by omega, uploadParts_ne_nil bytes⟩
    have hfirst := content_uploadLoop_zero h.toDecodes hne hrun
    rw [flatten_take_uploadParts] at hfirst
    obtain ⟨g', hagain, hcontent⟩ := hall g₁
    rw [List.map_take, ← uploadTexts_eq] at hrun
    exact ⟨g₁, g', hrun, hfirst, hagain, hcontent⟩

/-! ## A guest that reads scripts -/

/-- The tokens of a script that writes or appends a chunk. -/
def uploadTokens (append : Bool) (chunk path : List Char) : List (Tok Empty) :=
  [.word false ("mkdir".toList.map .plain), .word false ("-p".toList.map .plain), .enter true [],
    .word false ("dirname".toList.map .plain), .word true (path.map .quoted), .leave, .word true [],
    .op ['&', '&'], .word false ("printf".toList.map .plain), .word false ("%s".toList.map .plain),
    .word true (chunk.map .quoted), .op ['|'], .word false ("base64".toList.map .plain),
    .word false ("-d".toList.map .plain), .op (if append then ['>', '>'] else ['>']),
    .word true (path.map .quoted)]

/-- What follows a chunk, behind a place for it. -/
theorem text_afterChunk (append : Bool) :
    (Lexer.inWord ⟨.normal, false, [], .none, Script.beforeChunk⟩ .single [.hole .scratch]).text
      ("' | base64 -d ".toList ++ ((if append then ">>" else ">").toList ++ " ".toList)) =
    (⟨.normal, false, [], .none, Script.beforeChunk ++
      [.word true [.hole .scratch], .op ['|'], .word false ("base64".toList.map .plain),
        .word false ("-d".toList.map .plain), .op (if append then ['>', '>'] else ['>'])]⟩ :
      Lexer Hole) := by
  cases append with
  | false => rfl
  | true => rfl

/-- **The shell finds the chunk, the redirection and the file that were meant.** -/
theorem tokens_upload {chunk : List Char} (hchunk : '\'' ∉ chunk) (i : Nat) (path : String) :
    (Script.upload i chunk path).tokens = uploadTokens (i ≠ 0) chunk path.toList := by
  have hredirect : (if i = 0 then ">" else ">>") = if decide (i ≠ 0) = true then ">>" else ">" := by
    by_cases hi : i = 0
    · simp [hi]
    · simp [hi]
  have hrun : (Lexer.start : Lexer Hole).run (Script.uploadTemplate i chunk) =
      Lexer.hole (Lexer.subst (Script.inScratch (chunk.map .quoted)) ⟨.normal, false, [], .none,
        Script.beforeChunk ++ [.word true [.hole .scratch], .op ['|'],
          .word false ("base64".toList.map .plain), .word false ("-d".toList.map .plain),
          .op (if decide (i ≠ 0) = true then ['>', '>'] else ['>'])]⟩) .path := by
    delta Script.uploadTemplate
    simp only [Lexer.run_append, Script.run_letters, Lexer.run_chars]
    rw [Script.text_beforeChunk, Lexer.text_single _ hchunk, ← Lexer.text_append, ← Lexer.text_append,
      List.nil_append, Script.text_inWord _ rfl, hredirect, text_afterChunk]
    rfl
  rw [Script.tokens_eq (show (Script.upload i chunk path).Plain from hchunk)]
  change (Lexer.run _ (Script.uploadTemplate i chunk)).tokens.map _ = _
  rw [hrun]
  simp only [Lexer.hole, Lexer.put, Lexer.subst, Lexer.tokens, Script.beforeChunk, Tok.subst, Letter.subst,
    Script.inScratch, inQuotes, Script.value, uploadTokens, Current.subst, Current.toks,
    Lexer.subst_plain, Lexer.subst_quoted, List.map_cons, List.map_nil,
    List.flatMap_cons, List.flatMap_nil, List.cons_append, List.nil_append, List.append_nil, if_pos,
    reduceCtorEq, if_false]

/-- What a script says, by the letters of its words. -/
def readUpload (toks : List (Tok Empty)) : Option (Bool × List Char × List Char) :=
  let wordAt (i : Nat) : List Char := match toks[i]? with
    | some (.word _ letters) => letters.filterMap fun
      | .quoted c => some c
      | _ => none
    | _ => []
  let chunk := wordAt 10
  let path := wordAt 4
  if toks = uploadTokens false chunk path then some (false, chunk, path)
  else if toks = uploadTokens true chunk path then some (true, chunk, path)
  else none

theorem readUpload_uploadTokens (append : Bool) (chunk path : List Char) :
    readUpload (uploadTokens append chunk path) = some (append, chunk, path) := by
  cases append with
  | false => simp [readUpload, uploadTokens]
  | true => simp [readUpload, uploadTokens]

/-- A guest that reads its commands as a shell does. It knows those of an upload, and no others. -/
def shellGuest : UploadGuest (String → Option Bytes) where
  exec _ script _ _ files := match readUpload (Lexer.start.text script.toList).tokens with
    | none => (.ok ⟨"", "", "", 127⟩, files)
    | some (append, chunk, path) =>
      let path := String.ofList path
      let before := if append then (files path).getD [] else []
      match Base64.decode chunk with
      | none => (.ok ⟨"", "", "", 1⟩, Function.update files path (some before))
      | some bs => (.ok ⟨"", "", "", 0⟩, Function.update files path (some (before ++ bs)))
  content files path := files path

/-- Base64 does not break out of single quotes. -/
theorem quote_notMem_of_decode {chunk : List Char} {bs : Bytes} (h : Base64.decode chunk = some bs) :
    '\'' ∉ chunk := by
  rw [Base64.decode_eq_some.mp h]
  intro hmem
  rcases Base64.mem_encode hmem with hletter | hpad
  · cases hletter
  · exact absurd hpad (by decide)

theorem exec_shellGuest {chunk : List Char} {bs : Bytes} (h : Base64.decode chunk = some bs)
    (id path : String) (i : Nat) (files : String → Option Bytes) :
    shellGuest.exec id (uploadScript i chunk path) [] 120 files = (.ok ⟨"", "", "", 0⟩,
      Function.update files path
        (some ((if i ≠ 0 then (files path).getD [] else []) ++ bs))) := by
  have hread : readUpload (Lexer.start.text (uploadScript i chunk path).toList).tokens =
      some (decide (i ≠ 0), chunk, path.toList) := by
    have htokens := tokens_upload (quote_notMem_of_decode h) i path
    rw [Script.tokens, Script.text] at htokens
    rw [htokens, readUpload_uploadTokens]
  simp only [shellGuest, hread, h, String.ofList_toList, decide_eq_true_eq]

/-- **Such a guest runs what is posted to it.** -/
theorem runs_shellGuest : shellGuest.Runs where
  truncates {id path chunk bs g g' out} h hexec _ := by
    have hrun := exec_shellGuest h id path 0 g
    rw [uploadScript, if_pos rfl, hexec] at hrun
    rw [(Prod.mk.inj hrun).2]
    simp [shellGuest]
  appends {id path chunk bs g g' out} h hexec _ := by
    have hrun := exec_shellGuest h id path 1 g
    rw [uploadScript, if_neg Nat.one_ne_zero, hexec] at hrun
    rw [(Prod.mk.inj hrun).2]
    simp [shellGuest]
  succeeds id path i chunk bs g h := ⟨_, _, exec_shellGuest h id path i g, rfl⟩

/-- A payload of two chunks over a longer file, after an attempt that stopped behind the first of them. -/
theorem stopped_upload_repeated : (uploadTexts (List.replicate 18433 7)).length = 2 ∧
    ∃ g₁ g', shellGuest.content g₁ "/w/it's" = some (List.replicate 18432 7) ∧
      uploadLoop shellGuest "sb-1" "r.j.checkout" "/w/it's" 2 0 (uploadTexts (List.replicate 18433 7))
        g₁ = (.ok (), g') ∧
      shellGuest.content g' "/w/it's" = some (List.replicate 18433 7) := by
  have hlen : (uploadTexts (List.replicate 18433 7)).length = 2 := by
    rw [length_uploadTexts, List.length_replicate]
    rfl
  obtain ⟨-, -, hretry⟩ := upload_exact shellGuest runs_shellGuest "sb-1" "r.j.checkout" "/w/it's"
    (List.replicate 18433 7)
  obtain ⟨g₁, g', -, hfirst, hrun, hcontent⟩ :=
    hretry (fun _ => some (List.replicate 40000 0)) 1 Nat.one_pos
  rw [hlen] at hrun
  rw [List.take_replicate] at hfirst
  exact ⟨hlen, g₁, g', hfirst, hrun, hcontent⟩

end HeyoCi
