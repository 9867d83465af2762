import HeyoCi.Web.LogStream

/-!
# A page that follows a job

The page of a job is rendered with the logs of its steps as they are then. While the job has not ended,
the page carries a script, which opens a stream and appends what that sends to the block of its step. It
asks for the page again when the stream is done, or sends of a step that has no block.

* `JobPage`, `appendTo`: the blocks of a page, and how the script adds to one;
* `Viewer`, `Viewer.machine`: a browser beside the stream of its page, one read or one event at a time;
* `Viewer.Inv`, `inv_step`: a block is what it was rendered with, and what the script was sent since;
* **`page_shows_logs`**: as the stream starts at the start of a log, a page shows twice what it was
  rendered with;
* **`reload_shows_logs`**: the page that is loaded after that shows the logs.
-/

namespace HeyoCi

/-! ## Pages -/

/-- The page of a job, as far as the script changes it: the blocks `log-idx` of its steps, with the texts
as they are written, and whether it carries the script. -/
structure JobPage where
  blocks : List (Int × List Char)
  live : Bool
  deriving Repr, DecidableEq

/-- Append a text to the block of a step, where there is one. -/
def appendTo (idx : Int) (text : List Char) :
    List (Int × List Char) → Option (List (Int × List Char))
  | [] => none
  | (i, shown) :: blocks =>
    if i = idx then some ((i, shown ++ text) :: blocks)
    else (appendTo idx text blocks).map ((i, shown) :: ·)

theorem lookup_appendTo {idx : Int} {text : List Char} {blocks blocks' : List (Int × List Char)}
    (h : appendTo idx text blocks = some blocks') (i : Int) :
    blocks'.lookup i = (blocks.lookup i).map (· ++ if idx = i then text else []) := by
  induction blocks generalizing blocks' with
  | nil => cases h
  | cons b blocks ih =>
    obtain ⟨j, shown⟩ := b
    rw [appendTo] at h
    split_ifs at h with hj
    · cases h
      rw [List.lookup_cons, List.lookup_cons, hj]
      by_cases hi : i = idx
      · simp [hi]
      · simp [Ne.symm hi, beq_eq_false_iff_ne.mpr hi]
    · obtain ⟨rest, hrest, rfl⟩ := Option.map_eq_some_iff.mp h
      rw [List.lookup_cons, List.lookup_cons, ih hrest]
      by_cases hi : i = j
      · have hne : idx ≠ j := fun heq => hj heq.symm
        simp [hi, hne]
      · simp [beq_eq_false_iff_ne.mpr hi]

theorem mem_of_lookup {idx : Int} {text : List Char} {blocks : List (Int × List Char)}
    (h : blocks.lookup idx = some text) : (idx, text) ∈ blocks := by
  obtain ⟨before, after, rfl, -⟩ := List.lookup_eq_some_iff.mp h
  exact List.mem_append_right _ List.mem_cons_self

theorem appendTo_eq_none_iff {idx : Int} {text : List Char} {blocks : List (Int × List Char)} :
    appendTo idx text blocks = none ↔ blocks.lookup idx = none := by
  induction blocks with
  | nil => simp [appendTo]
  | cons b blocks ih =>
    obtain ⟨j, shown⟩ := b
    rw [appendTo, List.lookup_cons]
    by_cases hj : j = idx
    · simp [hj]
    · simp [hj, beq_eq_false_iff_ne.mpr (Ne.symm hj), ih]

/-! ## A browser -/

/-- How far a request for the page is. -/
inductive PageRequest where
  | sent
  /-- The run and the row of the job were read. -/
  | jobRead (status : JobStatus)
  /-- The steps were read, and the logs of some of them not yet. -/
  | reading (status : JobStatus) (rest : List StepLog) (blocks : List (Int × List Char))
  deriving Repr, DecidableEq

/-- The `EventSource` of the script. -/
inductive EventSource where
  | connecting
  | following
  | closed
  deriving Repr, DecidableEq

/-- A stream as it starts. -/
def LogStream.opened (logs : Logs) : LogStream := ⟨logs, ⟨fun _ => 0, []⟩, .top, logs, true⟩

/-- A browser that shows the page of a job, beside the stream that was opened last. -/
structure Viewer where
  stream : LogStream
  request : Option PageRequest
  page : JobPage
  source : EventSource
  /-- How many events of the stream the script has handled. -/
  handled : Nat
  /-- The script has asked for the page again. -/
  reloading : Bool
  /-- The blocks of the page as they came, which nothing reads. -/
  rendered : List (Int × List Char)

namespace Viewer

/-- One thing that happens. -/
inductive Label where
  /-- To the job, or to the stream at the server. -/
  | server (l : LogStream.Label)
  /-- The page is opened or loaded again. -/
  | request
  | readJob (ok : Bool)
  | readSteps (ok : Bool)
  | readLog (ok : Bool)
  | render
  /-- The request for the stream is answered: its token is good, or it is not. -/
  | connect (admitted : Bool)
  /-- The script is given the next event. -/
  | deliver
  /-- The connection is lost. -/
  | lose
  deriving Repr, DecidableEq

variable (v : Viewer)

/-- The answer to the request is shown. -/
def opened (page : JobPage) : Viewer := { v with
  request := none
  page
  source := if page.live then .connecting else .closed
  handled := 0
  reloading := false
  rendered := page.blocks }

/-- The script's listeners. -/
def handle : SseEvent → Viewer
  | .log idx text => match appendTo idx text v.page.blocks with
    | some blocks => { v with page := { v.page with blocks } }
    | none => { v with reloading := true }
  | .done => { v with source := .closed, reloading := true }

/-- `job_page`, one read at a time, and the script of the page. -/
def step : Label → Option Viewer
  | .server l => (v.stream.step l).map fun stream => { v with stream }
  | .request => some { v with request := some .sent }
  | .readJob ok => match v.request with
    | some .sent => match ok, v.stream.logs.status with
      | true, some status => some { v with request := some (.jobRead status) }
      -- there is no such run or job
      | _, _ => some (v.opened ⟨[], false⟩)
    | _ => none
  | .readSteps ok => match v.request with
    | some (.jobRead status) => some { v with
        request := some (.reading status (if ok then v.stream.logs.steps else []) []) }
    | _ => none
  | .readLog ok => match v.request with
    | some (.reading status (row :: rest) blocks) =>
      let text := if row.hasLog && ok then v.stream.logs.text row.idx else []
      some { v with request := some (.reading status rest (blocks ++ [(row.idx, text)])) }
    | _ => none
  | .render => match v.request with
    | some (.reading status [] blocks) => some (v.opened ⟨blocks, !status.isTerminal⟩)
    | _ => none
  | .connect admitted => match v.source with
    | .connecting => if admitted then
        some { v with stream := .opened v.stream.logs, source := .following }
      else some { v with source := .closed }
    | _ => none
  | .deliver => match v.source, v.stream.tail.out[v.handled]? with
    | .following, some event => some { v.handle event with handled := v.handled + 1 }
    | _, _ => none
  | .lose => match v.source with
    | .following => some { v with source := .closed }
    | _ => none

/-- A browser before it shows the page. -/
def start (logs : Logs) : Viewer := ⟨.opened logs, none, ⟨[], false⟩, .closed, 0, false, []⟩

def machine : Machine Viewer Label where
  init v := ∃ logs, v = start logs
  step := step

/-- The events that the script has handled. -/
def events : List SseEvent := v.stream.tail.out.take v.handled

/-- What these say of a step's log. -/
def seen (idx : Int) : List Char := LogStream.sentText v.events idx

end Viewer

/-! ## What a step of the stream leaves -/

namespace LogStream

variable {s s' : LogStream}

theorem out_poll (tail : Tail) (idx : Int) (read : List Char) :
    (tail.poll idx read).out = tail.out ∨
      ∃ text, (tail.poll idx read).out = tail.out ++ [.log idx text] := by
  unfold Tail.poll
  simp only
  split_ifs
  · exact Or.inl rfl
  · exact Or.inr ⟨_, rfl⟩
  · exact Or.inl rfl

/-- A step of the stream sends nothing, or one thing before which it was not done. -/
theorem out_step (h : Inv s) {l : Label} (hs : step s l = some s') :
    s'.tail.out = s.tail.out ∨
      SseEvent.done ∉ s.tail.out ∧ ∃ event, s'.tail.out = s.tail.out ++ [event] := by
  cases l with
  | change c =>
    cases hs
    exact Or.inl rfl
  | readJob ok =>
    simp only [step] at hs
    split at hs
    · split at hs <;> (cases hs; exact Or.inl rfl)
    · cases hs
  | readSteps ok =>
    simp only [step] at hs
    split at hs
    · cases hs
      exact Or.inl rfl
    · cases hs
  | readLog ok =>
    simp only [step] at hs
    split at hs
    · rename_i status row rest hphase
      have hdone := h.not_done (by rw [hphase]; exact Phase.noConfusion)
      cases hs
      exact (out_poll _ _ _).imp_right fun ⟨text, htext⟩ => ⟨hdone, _, htext⟩
    · cases hs
  | endPoll =>
    simp only [step] at hs
    split at hs
    · rename_i status hphase
      have hdone := h.not_done (by rw [hphase]; exact Phase.noConfusion)
      split_ifs at hs
      · cases hs
        exact Or.inr ⟨hdone, _, rfl⟩
      · cases hs
        exact Or.inl rfl
    · cases hs

/-- Logs grow, and so does what the row of the job was read with. -/
theorem logs_step (h : Inv s) {l : Label} (hs : step s l = some s') :
    s.logs.Le s'.logs ∧ s.atRow.Le s'.atRow := by
  cases l with
  | change c =>
    cases hs
    exact ⟨s.logs.le_change c, Logs.Le.refl _⟩
  | readJob ok =>
    simp only [step] at hs
    split at hs
    · split at hs
      · cases hs
        exact ⟨Logs.Le.refl _, h.grown⟩
      · cases hs
        exact ⟨Logs.Le.refl _, Logs.Le.refl _⟩
    · cases hs
  | readSteps ok =>
    simp only [step] at hs
    split at hs
    · cases hs
      exact ⟨Logs.Le.refl _, Logs.Le.refl _⟩
    · cases hs
  | readLog ok =>
    simp only [step] at hs
    split at hs
    · cases hs
      exact ⟨Logs.Le.refl _, Logs.Le.refl _⟩
    · cases hs
  | endPoll =>
    simp only [step] at hs
    split at hs
    · split_ifs at hs <;> (cases hs; exact ⟨Logs.Le.refl _, Logs.Le.refl _⟩)
    · cases hs

/-- `done` is the last thing that is sent. -/
def DoneLast (out : List SseEvent) : Prop := ∀ n : Nat, out[n]? = some .done → n + 1 = out.length

theorem DoneLast.step (h : Inv s) (hlast : DoneLast s.tail.out) {l : Label}
    (hs : step s l = some s') : DoneLast s'.tail.out := by
  rcases out_step h hs with heq | ⟨hdone, event, heq⟩
  · rwa [heq]
  · intro n hn
    rw [heq] at hn ⊢
    have hge : s.tail.out.length ≤ n := by
      by_contra hlt
      rw [List.getElem?_append_left (Nat.not_le.mp hlt)] at hn
      exact hdone (List.mem_of_getElem? hn)
    have hlt : n < (s.tail.out ++ [event]).length := (List.getElem?_eq_some_iff.mp hn).1
    rw [List.length_append, List.length_singleton] at hlt ⊢
    omega

end LogStream

/-! ## What a block shows -/

namespace Viewer

/-- The texts of blocks are there in the logs. -/
def WithinLogs (blocks : List (Int × List Char)) (logs : Logs) : Prop :=
  ∀ b ∈ blocks, b.2 <+: logs.text b.1

/-- **A block is what it was rendered with, and what the script was sent since.** -/
structure Inv (v : Viewer) : Prop where
  stream : LogStream.Inv v.stream
  last : LogStream.DoneLast v.stream.tail.out
  handled : v.handled ≤ v.stream.tail.out.length
  request : ∀ status rest blocks, v.request = some (.reading status rest blocks) →
    WithinLogs blocks v.stream.logs
  rendered : WithinLogs v.rendered v.stream.logs
  blocks : ∀ idx, v.page.blocks.lookup idx = (v.rendered.lookup idx).map (· ++ v.seen idx)
  /-- Nothing was handled before the stream is open, and nothing ever without a script. -/
  idle : v.source = .connecting ∨ v.page.live = false → v.handled = 0
  closed : v.page.live = false → v.source = .closed
  /-- The row of the job was read for the stream after the page was rendered. -/
  row : v.source = .following ∨ 0 < v.handled → WithinLogs v.rendered v.stream.atRow
  missed : ∀ idx text, SseEvent.log idx text ∈ v.events → v.rendered.lookup idx = none →
    v.reloading = true
  done : SseEvent.done ∈ v.events → v.reloading = true

variable {v v' : Viewer}

theorem WithinLogs.mono {blocks : List (Int × List Char)} {logs logs' : Logs}
    (h : WithinLogs blocks logs) (hle : logs.Le logs') : WithinLogs blocks logs' :=
  fun b hb => (h b hb).trans (hle.text b.1)

theorem events_eq_nil (h : v.handled = 0) : v.events = [] := by
  rw [events, h, List.take_zero]

/-- The stream goes on, and the script has handled what it had. -/
theorem take_out {n : Nat} {out out' : List SseEvent} (hn : n ≤ out.length)
    (hout : out' = out ∨ ∃ event, out' = out ++ [event]) : out'.take n = out.take n := by
  rcases hout with rfl | ⟨event, rfl⟩
  · rfl
  · exact List.take_append_of_le_length hn

theorem inv_start (logs : Logs) : Inv (start logs) where
  stream := LogStream.inv_init ⟨rfl, rfl, rfl⟩
  last := nofun
  handled := Nat.zero_le _
  request := nofun
  rendered := nofun
  blocks _ := rfl
  idle _ := rfl
  closed _ := rfl
  row := nofun
  missed := nofun
  done := nofun

/-- The answer to a request is what was read. -/
theorem Inv.opened (h : Inv v) {page : JobPage} (hpage : WithinLogs page.blocks v.stream.logs) :
    Inv (v.opened page) where
  stream := h.stream
  last := h.last
  handled := Nat.zero_le _
  request := nofun
  rendered := hpage
  blocks idx := by
    have hseen : (v.opened page).seen idx = [] := rfl
    change page.blocks.lookup idx = (page.blocks.lookup idx).map (· ++ (v.opened page).seen idx)
    rw [hseen]
    simp
  idle _ := rfl
  closed hlive := by
    change (if page.live then EventSource.connecting else .closed) = .closed
    have hlive : page.live = false := hlive
    rw [hlive]
    rfl
  row hrow := by
    rcases hrow with hsource | hpos
    · change (if page.live then EventSource.connecting else .closed) = .following at hsource
      split_ifs at hsource
    · exact absurd hpos (Nat.lt_irrefl 0)
  missed := nofun
  done := nofun

theorem inv_server (h : Inv v) {l : LogStream.Label} {stream : LogStream}
    (hs : v.stream.step l = some stream) : Inv { v with stream } := by
  obtain ⟨hlogs, hrow⟩ := LogStream.logs_step h.stream hs
  have hout := LogStream.out_step h.stream hs
  have htake : stream.tail.out.take v.handled = v.events :=
    take_out h.handled (hout.imp_right And.right)
  have hseen : ∀ idx, ({ v with stream } : Viewer).seen idx = v.seen idx :=
    fun idx => congrArg (LogStream.sentText · idx) htake
  exact
    { stream := LogStream.inv_step l h.stream hs
      last := h.last.step h.stream hs
      handled := by
        rcases hout with heq | ⟨-, event, heq⟩
        · exact Nat.le_trans h.handled (Nat.le_of_eq (congrArg List.length heq).symm)
        · refine Nat.le_trans h.handled ?_
          change _ ≤ stream.tail.out.length
          rw [heq, List.length_append]
          exact Nat.le_add_right _ _
      request := fun status rest blocks hreq => (h.request status rest blocks hreq).mono hlogs
      rendered := h.rendered.mono hlogs
      blocks := fun idx => by
        rw [hseen]
        exact h.blocks idx
      idle := h.idle
      closed := h.closed
      row := fun hr => (h.row hr).mono hrow
      missed := fun idx text hmem => h.missed idx text (htake ▸ hmem)
      done := fun hmem => h.done (htake ▸ hmem) }

/-- The next event is handled: what it says is in the blocks, or the page is asked for again. -/
theorem Inv.next (h : Inv v) {event : SseEvent} (hsource : v.source = .following)
    (hevent : v.stream.tail.out[v.handled]? = some event) {blocks : List (Int × List Char)}
    {source : EventSource} {reloading : Bool} (hclosed : source ≠ .connecting)
    (hblocks : ∀ idx, blocks.lookup idx =
      (v.rendered.lookup idx).map (· ++ (v.seen idx ++ LogStream.sentText [event] idx)))
    (hkept : v.reloading = true → reloading = true)
    (hmissed : ∀ idx text, event = .log idx text → v.rendered.lookup idx = none → reloading = true)
    (hdone : event = .done → reloading = true) :
    Inv { v with
      page := { v.page with blocks }, source, reloading, handled := v.handled + 1 } := by
  have hevents : v.stream.tail.out.take (v.handled + 1) = v.events ++ [event] := by
    rw [List.take_add_one, hevent]
    rfl
  have hlive : v.page.live ≠ false := fun hlive => by
    rw [h.closed hlive] at hsource
    cases hsource
  exact
    { stream := h.stream
      last := h.last
      handled := (List.getElem?_eq_some_iff.mp hevent).1
      request := h.request
      rendered := h.rendered
      blocks := fun idx => by
        refine (hblocks idx).trans ?_
        rw [seen, seen, ← LogStream.sentText_append, ← hevents]
        rfl
      idle := fun hidle => (hidle.elim hclosed hlive).elim
      closed := fun hdead => absurd hdead hlive
      row := fun _ => h.row (Or.inl hsource)
      missed := fun idx text hmem hnone => by
        have hmem : SseEvent.log idx text ∈ v.stream.tail.out.take (v.handled + 1) := hmem
        rw [hevents] at hmem
        rcases List.mem_append.mp hmem with hold | hnew
        · exact hkept (h.missed idx text hold hnone)
        · exact hmissed idx text (List.mem_singleton.mp hnew).symm hnone
      done := fun hmem => by
        have hmem : SseEvent.done ∈ v.stream.tail.out.take (v.handled + 1) := hmem
        rw [hevents] at hmem
        rcases List.mem_append.mp hmem with hold | hnew
        · exact hkept (h.done hold)
        · exact hdone (List.mem_singleton.mp hnew).symm }

theorem inv_deliver (h : Inv v) {event : SseEvent} (hsource : v.source = .following)
    (hevent : v.stream.tail.out[v.handled]? = some event) :
    Inv { v.handle event with handled := v.handled + 1 } := by
  have hfollowing : v.source ≠ .connecting := by
    rw [hsource]
    exact EventSource.noConfusion
  cases event with
  | done =>
    refine h.next hsource hevent EventSource.noConfusion (fun idx => ?_) (fun _ => rfl)
      (fun _ _ _ _ => rfl) fun _ => rfl
    rw [h.blocks idx, show LogStream.sentText [.done] idx = [] from rfl, List.append_nil]
  | log idx text =>
    have hsent : ∀ i, LogStream.sentText [.log idx text] i = if idx = i then text else [] :=
      fun i => List.append_nil _
    rw [handle]
    cases happend : appendTo idx text v.page.blocks with
    | some blocks =>
      -- the step has a block
      refine h.next hsource hevent hfollowing (fun i => ?_) id (fun i part heq hnone => ?_) nofun
      · rw [lookup_appendTo happend i, h.blocks i, hsent, Option.map_map]
        simp only [Function.comp_def, List.append_assoc]
      · cases heq
        have hblock := h.blocks idx
        rw [hnone, Option.map_none] at hblock
        rw [appendTo_eq_none_iff.mpr hblock] at happend
        cases happend
    | none =>
      refine h.next hsource hevent hfollowing (fun i => ?_) (fun _ => rfl) (fun _ _ _ _ => rfl)
        nofun
      rw [h.blocks i, hsent]
      by_cases hi : idx = i
      · have hblock := appendTo_eq_none_iff.mp happend
        rw [h.blocks idx, Option.map_eq_none_iff] at hblock
        rw [← hi, hblock]
        rfl
      · rw [if_neg hi, List.append_nil]

/-- A page whose stream has just been opened. -/
theorem inv_connect (h : Inv v) (hsource : v.source = .connecting) :
    Inv { v with stream := .opened v.stream.logs, source := .following } := by
  have hzero := h.idle (Or.inl hsource)
  have hold : v.events = [] := events_eq_nil hzero
  have hnew : ({ v with stream := .opened v.stream.logs, source := .following } : Viewer).events =
      [] := events_eq_nil hzero
  exact
    { stream := LogStream.inv_init ⟨rfl, rfl, rfl⟩
      last := nofun
      handled := Nat.le_of_eq hzero
      request := h.request
      rendered := h.rendered
      blocks := fun idx => by
        refine (h.blocks idx).trans ?_
        rw [seen, seen, hold, hnew]
      idle := fun _ => hzero
      closed := fun hdead => by
        rw [h.closed hdead] at hsource
        cases hsource
      row := fun _ => h.rendered
      missed := fun idx text hmem => by
        rw [hnew] at hmem
        cases hmem
      done := fun hmem => by
        rw [hnew] at hmem
        cases hmem }

theorem Inv.close (h : Inv v) : Inv { v with source := .closed } :=
  { h with
    idle := fun hidle => h.idle (Or.inr (hidle.resolve_left EventSource.noConfusion))
    closed := fun _ => rfl
    row := fun hrow => h.row (Or.inr (hrow.resolve_left EventSource.noConfusion)) }

theorem inv_step (a : Label) (h : Inv v) (hs : v.step a = some v') : Inv v' := by
  cases a with
  | server l =>
    obtain ⟨stream, hstream, rfl⟩ := Option.map_eq_some_iff.mp hs
    exact inv_server h hstream
  | request =>
    cases hs
    exact { h with request := nofun }
  | readJob ok =>
    simp only [step] at hs
    split at hs
    · split at hs
      · cases hs
        exact { h with request := nofun }
      · cases hs
        exact h.opened nofun
    · cases hs
  | readSteps ok =>
    simp only [step] at hs
    split at hs
    · cases hs
      refine { h with request := ?_ }
      rintro _ _ _ ⟨⟩
      exact nofun
    · cases hs
  | readLog ok =>
    simp only [step] at hs
    split at hs
    · rename_i status row rest blocks hreq
      cases hs
      refine { h with request := ?_ }
      rintro _ _ _ ⟨⟩ b hb
      rcases List.mem_append.mp hb with hb | hb
      · exact h.request status (row :: rest) blocks hreq b hb
      · obtain rfl := List.mem_singleton.mp hb
        change (if row.hasLog && ok then v.stream.logs.text row.idx else []) <+: _
        split_ifs
        · exact List.prefix_rfl
        · exact List.nil_prefix
    · cases hs
  | render =>
    simp only [step] at hs
    split at hs
    · rename_i status blocks hreq
      cases hs
      exact h.opened (h.request status [] blocks hreq)
    · cases hs
  | connect admitted =>
    simp only [step] at hs
    split at hs
    · rename_i hsource
      split_ifs at hs
      · cases hs
        exact inv_connect h hsource
      · cases hs
        exact h.close
    · cases hs
  | deliver =>
    simp only [step] at hs
    split at hs
    · rename_i event hsource hevent
      cases hs
      exact inv_deliver h hsource hevent
    · cases hs
  | lose =>
    simp only [step] at hs
    split at hs
    · cases hs
      exact h.close
    · cases hs

theorem inv_reachable (h : machine.Reachable Machine.anyStep v) : Inv v := by
  refine h.inv Inv ?_ fun _ a _ _ hI _ hs => inv_step a hI hs
  rintro _ ⟨logs, rfl⟩
  exact inv_start logs

/-- What was handled is a part of the log. -/
theorem Inv.seen_prefix (h : Inv v) (idx : Int) : v.seen idx <+: v.stream.logs.text idx := by
  refine List.IsPrefix.trans ?_ (h.stream.sent idx).1
  have hsplit : v.stream.tail.out = v.events ++ v.stream.tail.out.drop v.handled :=
    (List.take_append_drop _ _).symm
  exact ⟨LogStream.sentText (v.stream.tail.out.drop v.handled) idx, by
    rw [seen, ← LogStream.sentText_append, ← hsplit]⟩

/-- A script that was told that the stream is done was told everything. -/
theorem Inv.events_of_done (h : Inv v) (hdone : SseEvent.done ∈ v.events) :
    v.events = v.stream.tail.out ∧ 0 < v.handled := by
  obtain ⟨n, hn⟩ := List.mem_iff_getElem?.mp hdone
  rw [events, List.getElem?_take] at hn
  split_ifs at hn with hlt
  have hlen := h.last n hn
  refine ⟨List.take_of_length_le ?_, by omega⟩
  omega

/-- **What the page of a job shows of its logs**, in every run. The block of a step shows what it was
rendered with, which the log starts with, and what the stream has sent since, which the log starts with
too. The script drops nothing: what it cannot put into a block makes it ask for the page again. And when
the stream is done, it asks for the page again, and the block shows what it was rendered with twice over,
if the reads of the last poll went well; if nothing is written any more, it shows the log exactly if it
was rendered empty. -/
theorem page_shows_logs (h : machine.Reachable Machine.anyStep v) :
    (∀ idx text, v.page.blocks.lookup idx = some text →
      ∃ base, v.rendered.lookup idx = some base ∧ text = base ++ v.seen idx ∧
        base <+: v.stream.logs.text idx ∧ v.seen idx <+: v.stream.logs.text idx ∧
        (v.page.live = false → v.seen idx = [])) ∧
    (∀ idx text, SseEvent.log idx text ∈ v.events → v.page.blocks.lookup idx = none →
      v.reloading = true) ∧
    (SseEvent.done ∈ v.events → v.reloading = true ∧ (v.stream.clean = true →
      ∀ idx base, v.stream.atRow.Recorded idx → v.rendered.lookup idx = some base →
        base <+: v.seen idx ∧
        (v.stream.logs.text idx = v.stream.atRow.text idx →
          (v.page.blocks.lookup idx = some (v.stream.logs.text idx) ↔ base = [])))) := by
  have hinv := inv_reachable h
  refine ⟨fun idx text hblock => ?_, fun idx text hmem hnone => ?_, fun hdone => ?_⟩
  · rw [hinv.blocks idx] at hblock
    obtain ⟨base, hbase, rfl⟩ := Option.map_eq_some_iff.mp hblock
    refine ⟨base, hbase, rfl, hinv.rendered _ (mem_of_lookup hbase), hinv.seen_prefix idx, ?_⟩
    intro hdead
    rw [seen, events_eq_nil (hinv.idle (Or.inr hdead))]
    rfl
  · rw [hinv.blocks idx, Option.map_eq_none_iff] at hnone
    exact hinv.missed idx text hmem hnone
  · obtain ⟨hevents, hpos⟩ := hinv.events_of_done hdone
    refine ⟨hinv.done hdone, fun hclean idx base hrecorded hbase => ?_⟩
    have hended := (hinv.stream.ended (hevents ▸ hdone)).2.2 hclean
    have hrow : v.stream.atRow.text idx <+: v.seen idx := by
      rw [seen, hevents]
      exact (hended idx hrecorded).resolve_left List.not_mem_nil
    refine ⟨(hinv.row (Or.inr hpos) _ (mem_of_lookup hbase)).trans hrow, fun hquiet => ?_⟩
    have hall : v.seen idx = v.stream.logs.text idx := by
      rw [← hquiet] at hrow
      exact (hinv.seen_prefix idx).eq_of_length_le hrow.length_le
    rw [hinv.blocks idx, hbase, hall]
    simp

section Twice

/-- A page that is opened when a step has printed one line, which is followed until the job has ended. -/
private def followed : List Label := [.server (.change (.addStep 0)),
  .server (.change (.write 0 ['a'])), .server (.change (.record 0)), .request, .readJob true,
  .readSteps true, .readLog true, .render, .connect true, .server (.readJob true),
  .server (.readSteps true), .server (.readLog true), .server .endPoll, .deliver,
  .server (.change (.setStatus .success)), .server (.readJob true), .server (.readSteps true),
  .server (.readLog true), .server .endPoll, .deliver]

private def runningLogs : Logs := ⟨some .running, [], fun _ => []⟩

/-- It shows the line twice, until it is loaded again. -/
theorem page_shows_logs_twice : ∃ v, machine.Reachable Machine.anyStep v ∧
    v.page = ⟨[(0, ['a', 'a'])], true⟩ ∧ v.stream.logs.text 0 = ['a'] ∧ v.reloading = true ∧
    ∃ base, v.rendered.lookup 0 = some base ∧ base <+: v.seen 0 ∧
      ¬ v.page.blocks.lookup 0 = some (v.stream.logs.text 0) := by
  have hrun : ((machine.run (start runningLogs) followed).map fun v =>
      ((v.page, v.rendered, v.events), v.stream.logs.text 0, v.stream.atRow.text 0,
        v.stream.atRow.steps, v.stream.clean)) =
      some ((⟨[(0, ['a', 'a'])], true⟩, [(0, ['a'])], [.log 0 ['a'], .done]), ['a'], ['a'],
        [⟨0, true⟩], true) := rfl
  obtain ⟨v, hv, heq⟩ := Option.map_eq_some_iff.mp hrun
  simp only [Prod.mk.injEq] at heq
  obtain ⟨⟨hpage, hrendered, hevents⟩, htext, hrow, hsteps, hclean⟩ := heq
  have hinit : machine.init (start runningLogs) := ⟨_, rfl⟩
  have hreach := Machine.reachable_of_run hinit hv
  have hdone : SseEvent.done ∈ v.events := by
    rw [hevents]
    exact List.mem_cons_of_mem _ List.mem_cons_self
  have hrecorded : v.stream.atRow.Recorded 0 := by
    rw [Logs.Recorded, hsteps]
    exact List.mem_cons_self
  have hbase : v.rendered.lookup 0 = some ['a'] := by
    rw [hrendered]
    rfl
  obtain ⟨hreloading, hshown⟩ := (page_shows_logs hreach).2.2 hdone
  obtain ⟨hpre, hexact⟩ := hshown hclean 0 _ hrecorded hbase
  refine ⟨v, hreach, hpage, htext, hreloading, _, hbase, hpre, fun hblock => ?_⟩
  exact absurd ((hexact (htext.trans hrow.symm)).mp hblock) (by simp)

end Twice

/-! ## The page that is loaded again -/

/-- The blocks that a page is rendered with, where its reads go well. -/
def blocksOf (logs : Logs) (steps : List StepLog) : List (Int × List Char) :=
  steps.map fun row => (row.idx, if row.hasLog then logs.text row.idx else [])

theorem run_readLogs {status : JobStatus} {rest : List StepLog} {v : Viewer}
    {blocks : List (Int × List Char)} (h : v.request = some (.reading status rest blocks)) :
    machine.run v (List.replicate rest.length (.readLog true)) = some { v with
      request := some (.reading status [] (blocks ++ blocksOf v.stream.logs rest)) } := by
  induction rest generalizing v blocks with
  | nil =>
    rw [blocksOf, List.map_nil, List.append_nil, ← h]
    rfl
  | cons row rest ih =>
    have hstep : machine.step v (.readLog true) = some { v with
        request := some (.reading status rest (blocks ++ blocksOf v.stream.logs [row])) } := by
      simp only [machine, step, h, Bool.and_true]
      rfl
    rw [List.length_cons, List.replicate_succ, Machine.run, hstep, Option.bind_some, ih rfl,
      List.append_assoc]
    rfl

/-- **A page that is loaded when the job has ended shows the logs**, if its reads go well, and has no
script. -/
theorem reload_shows_logs {v : Viewer} {status : JobStatus}
    (h : v.stream.logs.status = some status) :
    machine.run v ([.request, .readJob true, .readSteps true] ++
      List.replicate v.stream.logs.steps.length (.readLog true) ++ [.render]) =
      some (v.opened ⟨blocksOf v.stream.logs v.stream.logs.steps, !status.isTerminal⟩) := by
  have hread : machine.run v [.request, .readJob true, .readSteps true] = some { v with
      request := some (.reading status v.stream.logs.steps []) } := by
    have hjob : machine.step { v with request := some .sent } (.readJob true) = some { v with
        request := some (.jobRead status) } := by
      simp only [machine, step, h]
    change (machine.step { v with request := some .sent } (.readJob true)).bind _ = _
    rw [hjob]
    rfl
  rw [Machine.run_append, Machine.run_append, hread, Option.bind_some, run_readLogs rfl,
    Option.bind_some, List.nil_append]
  rfl

end Viewer

end HeyoCi
