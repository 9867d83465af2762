import HeyoCi.Lib.Actors
import HeyoCi.Lib.Machine
import HeyoCi.Sched.Exec

/-!
# The scheduler as a machine

Any number of scheduler passes, executions, cancellations and watchdog passes run at once over one
database and one work queue. A step is one statement or one publish of one of them, or the end of
one of them where it stands.

* `Watch`: a pass of `fail_jobs_waiting_for_a_runner`;
* `Ctl`, `World`: the actors and the queue, and the database with them;
* `Act`, `act`, `step`, `machine`: the labels and the steps;
* **`World.Moves`**, **`step_cases`**: every way the machine can move;
* `World.Moves.evolves`: what each step leaves alone;
* `mem_passes`, `mem_msgs`, `mem_execs`, `mem_watches`: where the actors after a step come from.
-/

namespace HeyoCi

/-- A pass of the watchdog, with the jobs it still has to look at. -/
structure Watch where
  pool : Pool
  todo : List JobRow

namespace Watch

/-- Whether the host a row names is up. -/
def online (pool : Pool) (job : JobRow) : Bool :=
  (job.runnerHdId.bind pool.locate).any fun sr => sr.2.status.isDispatchable

def whereTo (job : JobRow) : String :=
  (job.runnerHdId <|> job.network).getD "its network"

def detail (env : Env) (job : JobRow) : String :=
  s!"no runner took this job within {env.runnerWait}s. It is pinned to {whereTo job}, which " ++
    "is not online — a pinned job waits for its own host rather than " ++
    "migrating, because the warm VM pool is host-local. Bring that host " ++
    "back, set `fallback: any` on the job, or point `uses:` elsewhere."

end Watch

/-- Everything but the database. -/
structure Ctl where
  pool : Pool
  passes : List Pass
  execs : List Exec
  watches : List Watch
  /-- The runs whose `cancel_run` is between its two statements. -/
  cancels : List String
  msgs : List QueueMsg
  nextSeq : Nat
  /-- The job ids the stream has stored a message of. -/
  published : List String

structure World where
  db : Db
  ctl : Ctl

inductive Act where
  | tick (d : Nat)
  | setPool (pool : Pool)
  /-- `create_run`, going on to `advance_run`. -/
  | submit (runId : String) (req : RunRequest) (plan : Plan)
  /-- Any other call of `advance_run`. -/
  | advance (runId : String)
  | pass (i : Nat) (r : Reply)
  | passDies (i : Nat)
  | deliver (seq : Nat)
  | exec (i : Nat) (o : Outcome)
  | execDies (i : Nat)
  | cancelRun (runId : String)
  | cancelJobs (i : Nat)
  | cancelDies (i : Nat)
  | watch
  | watchJob (i : Nat) (r : Reply)
  | watchDies (i : Nat)

namespace Ctl

variable (c : Ctl)

/-- A new call of `advance_run`. -/
def spawn (runId : String) : Ctl := { c with passes := c.passes ++ [⟨runId, .jobsOf⟩] }

/-- The stream stores a message. -/
def send : Option (Route × JobMessage) → Ctl
  | none => c
  | some (route, msg) => { c with
      msgs := c.msgs ++ [⟨c.nextSeq, route, msg, 0⟩]
      nextSeq := c.nextSeq + 1
      published := msg.jobId :: c.published }

@[simp] theorem send_execs (m : Option (Route × JobMessage)) : (c.send m).execs = c.execs := by
  cases m <;> rfl

/-- Pass `p` at place `i` moved. -/
def passTo (i : Nat) (p : Pass) (m : PassMove) : Ctl :=
  { c.send m.send with passes := Actors.put c.passes i (m.next.map (Pass.mk p.runId)) }

/-- Execution `x` at place `i` moved. At its end it calls `advance_run`. -/
def execTo (i : Nat) (x : Exec) : ExecNext → Ctl
  | .goto pc => { c with execs := Actors.put c.execs i (some { x with pc := pc }) }
  | .settled acked => { c with
      execs := Actors.put c.execs i none
      msgs := if acked then c.msgs.filter (·.seq ≠ x.seq) else c.msgs
      passes := c.passes ++ [⟨x.body.runId, .jobsOf⟩] }

/-- The stream hands out a message. -/
def deliver (m : QueueMsg) : Ctl := { c with
  msgs := c.msgs.map fun m' => if m'.seq = m.seq then { m' with delivered := m'.delivered + 1 } else m'
  execs := c.execs ++ [⟨m.seq, m.body, m.delivered + 1, .getJob⟩] }

/-- The watchdog at place `i` is done with its next job. -/
def watchTo (i : Nat) (x : Watch) (todo : List JobRow) : Ctl :=
  { c with watches := Actors.put c.watches i (some { x with todo := todo }) }

end Ctl

/-- The stream only takes a message for a duplicate when it has stored one of its job. -/
def Pass.collapses (published : List String) (p : Pass) : Reply → Bool
  | .duplicate => match p.pc with
    | .publish _ _ _ msg _ => published.contains msg.jobId
    | _ => true
  | _ => true

/-- How many jobs the watchdog takes in one pass. -/
def watchBatch : Nat := 100

section Act

variable (env : Env) (w : World)

/-- The statement an action runs, and the actors after it. -/
def act : Act → Option (Stmt × Ctl)
  | .tick d => some (.tick d, w.ctl)
  | .setPool pool => some (.read, { w.ctl with pool := pool })
  | .submit runId req plan =>
    if (w.db.createRun runId req plan).isSome
    then some (.createRun runId req plan, w.ctl.spawn runId) else none
  | .advance runId => if (w.db.getRun runId).isSome then some (.read, w.ctl.spawn runId) else none
  | .pass i r => w.ctl.passes[i]?.bind fun p =>
      let m := p.move env w.ctl.pool w.db r
      if p.collapses w.ctl.published r then some (m.stmt, w.ctl.passTo i p m) else none
  | .passDies i => w.ctl.passes[i]?.map fun _ =>
      (.read, { w.ctl with passes := Actors.put w.ctl.passes i none })
  | .deliver seq => (w.ctl.msgs.find? (·.seq = seq)).bind fun m =>
      if m.delivered < maxDeliver then some (.read, w.ctl.deliver m) else none
  | .exec i o => w.ctl.execs[i]?.map fun x =>
      let m := x.move env w.ctl.pool w.db o
      (m.stmt, w.ctl.execTo i x m.next)
  | .execDies i => w.ctl.execs[i]?.map fun _ =>
      (.read, { w.ctl with execs := Actors.put w.ctl.execs i none })
  | .cancelRun runId => some (.cancelRun runId, { w.ctl with
      cancels := w.ctl.cancels ++ if w.db.affectsRuns (.cancelRun runId) then [runId] else [] })
  | .cancelJobs i => w.ctl.cancels[i]?.map fun runId =>
      (.cancelJobs runId, { w.ctl with cancels := Actors.put w.ctl.cancels i none })
  | .cancelDies i => w.ctl.cancels[i]?.map fun _ =>
      (.read, { w.ctl with cancels := Actors.put w.ctl.cancels i none })
  | .watch => some (.read, { w.ctl with
      watches := w.ctl.watches ++
        [⟨w.ctl.pool, w.db.jobsWaitingLongerThan env.runnerWait watchBatch⟩] })
  | .watchJob i r => w.ctl.watches[i]?.map fun x => match x.todo with
    | [] => (.read, { w.ctl with watches := Actors.put w.ctl.watches i none })
    | job :: todo =>
      if Watch.online x.pool job || r = .fail then (.read, w.ctl.watchTo i x todo)
      else (.setJobStatus job.id .failure (some (Watch.detail env job)),
        (w.ctl.watchTo i x todo).spawn job.runId)
  | .watchDies i => w.ctl.watches[i]?.map fun _ =>
      (.read, { w.ctl with watches := Actors.put w.ctl.watches i none })

/-- One step of the scheduler. -/
def step (a : Act) : Option World := (act env w a).map fun sc => ⟨w.db.exec sc.1, sc.2⟩

/-- The statement of a step. -/
def stmtOf (a : Act) : Option Stmt := (act env w a).map (·.1)

end Act

/-- Empty tables and an empty queue, at any time and with any hosts. -/
def World.start (now : Nat) (pool : Pool) : World where
  db := ⟨now, .empty, .empty⟩
  ctl := ⟨pool, [], [], [], [], [], 0, []⟩

/-- The scheduler. -/
def machine (env : Env) : Machine World Act where
  init w := ∃ now pool, w = World.start now pool
  step := step env

/-! ## Every way the machine can move -/

/-- What a step can be: the statement it runs and the actors after it. -/
inductive World.Moves (env : Env) (w : World) : Act → Stmt → Ctl → Prop
  | tick (d : Nat) : Moves env w (.tick d) (.tick d) w.ctl
  | setPool (pool : Pool) : Moves env w (.setPool pool) .read { w.ctl with pool := pool }
  | submit (runId : String) (req : RunRequest) (plan : Plan)
      (h : (w.db.createRun runId req plan).isSome = true) :
      Moves env w (.submit runId req plan) (.createRun runId req plan) (w.ctl.spawn runId)
  | advance (runId : String) (r : Run) (h : w.db.getRun runId = some r) :
      Moves env w (.advance runId) .read (w.ctl.spawn runId)
  | pass (i : Nat) (p : Pass) (hi : w.ctl.passes[i]? = some p) (r : Reply) (m : PassMove)
      (hm : p.Moves env w.ctl.pool w.db m) (hr : p.move env w.ctl.pool w.db r = m) :
      Moves env w (.pass i r) m.stmt (w.ctl.passTo i p m)
  | passDies (i : Nat) (p : Pass) (hi : w.ctl.passes[i]? = some p) :
      Moves env w (.passDies i) .read { w.ctl with passes := Actors.put w.ctl.passes i none }
  | deliver (m : QueueMsg) (hm : m ∈ w.ctl.msgs) (hd : m.delivered < maxDeliver) :
      Moves env w (.deliver m.seq) .read (w.ctl.deliver m)
  | exec (i : Nat) (x : Exec) (hi : w.ctl.execs[i]? = some x) (o : Outcome) (m : ExecMove)
      (hm : x.Moves w.db m) (ho : x.move env w.ctl.pool w.db o = m) :
      Moves env w (.exec i o) m.stmt (w.ctl.execTo i x m.next)
  | execDies (i : Nat) (x : Exec) (hi : w.ctl.execs[i]? = some x) :
      Moves env w (.execDies i) .read { w.ctl with execs := Actors.put w.ctl.execs i none }
  | cancelRun (runId : String) (cs : List String)
      (hcs : cs = if w.db.affectsRuns (.cancelRun runId) then [runId] else []) :
      Moves env w (.cancelRun runId) (.cancelRun runId)
        { w.ctl with cancels := w.ctl.cancels ++ cs }
  | cancelJobs (i : Nat) (runId : String) (hi : w.ctl.cancels[i]? = some runId) :
      Moves env w (.cancelJobs i) (.cancelJobs runId)
        { w.ctl with cancels := Actors.put w.ctl.cancels i none }
  | cancelDies (i : Nat) (runId : String) (hi : w.ctl.cancels[i]? = some runId) :
      Moves env w (.cancelDies i) .read { w.ctl with cancels := Actors.put w.ctl.cancels i none }
  | watch (x : Watch) (hx : x.todo = w.db.jobsWaitingLongerThan env.runnerWait watchBatch) :
      Moves env w .watch .read { w.ctl with watches := w.ctl.watches ++ [x] }
  | watchSkip (i : Nat) (x : Watch) (hi : w.ctl.watches[i]? = some x) (job : JobRow)
      (todo : List JobRow) (ht : x.todo = job :: todo) (r : Reply) :
      Moves env w (.watchJob i r) .read (w.ctl.watchTo i x todo)
  | watchFail (i : Nat) (x : Watch) (hi : w.ctl.watches[i]? = some x) (job : JobRow)
      (todo : List JobRow) (ht : x.todo = job :: todo) (r : Reply) :
      Moves env w (.watchJob i r) (.setJobStatus job.id .failure (some (Watch.detail env job)))
        ((w.ctl.watchTo i x todo).spawn job.runId)
  | watchEnds (i : Nat) (x : Watch) (hi : w.ctl.watches[i]? = some x) (a : Act)
      (ha : a = .watchDies i ∨ ∃ r, a = .watchJob i r ∧ x.todo = []) :
      Moves env w a .read { w.ctl with watches := Actors.put w.ctl.watches i none }

/-- **Every way the machine can move.** -/
theorem act_cases {env : Env} {w : World} {a : Act} {st : Stmt} {c : Ctl}
    (h : act env w a = some (st, c)) : World.Moves env w a st c := by
  cases a with
  | tick d =>
    cases h
    exact .tick d
  | setPool pool =>
    cases h
    exact .setPool pool
  | submit runId req plan =>
    simp only [act] at h
    split_ifs at h with hs
    cases h
    exact .submit runId req plan hs
  | advance runId =>
    simp only [act] at h
    split_ifs at h with hs
    cases h
    obtain ⟨r, hr⟩ := Option.isSome_iff_exists.mp hs
    exact .advance runId r hr
  | pass i r =>
    obtain ⟨p, hi, h⟩ := Option.bind_eq_some_iff.mp h
    simp only at h
    split_ifs at h
    cases h
    exact .pass i p hi r _ (p.moves env w.ctl.pool w.db r) rfl
  | passDies i =>
    obtain ⟨p, hi, h⟩ := Option.map_eq_some_iff.mp h
    cases h
    exact .passDies i p hi
  | deliver seq =>
    obtain ⟨m, hm, h⟩ := Option.bind_eq_some_iff.mp h
    split_ifs at h with hd
    cases h
    have hseq : m.seq = seq := by simpa using List.find?_some hm
    rw [← hseq]
    exact .deliver m (List.mem_of_find?_eq_some hm) hd
  | exec i o =>
    obtain ⟨x, hi, h⟩ := Option.map_eq_some_iff.mp h
    cases h
    exact .exec i x hi o _ (x.moves env w.ctl.pool w.db o) rfl
  | execDies i =>
    obtain ⟨x, hi, h⟩ := Option.map_eq_some_iff.mp h
    cases h
    exact .execDies i x hi
  | cancelRun runId =>
    cases h
    exact .cancelRun runId _ rfl
  | cancelJobs i =>
    obtain ⟨runId, hi, h⟩ := Option.map_eq_some_iff.mp h
    cases h
    exact .cancelJobs i runId hi
  | cancelDies i =>
    obtain ⟨runId, hi, h⟩ := Option.map_eq_some_iff.mp h
    cases h
    exact .cancelDies i runId hi
  | watch =>
    cases h
    exact .watch _ rfl
  | watchJob i r =>
    obtain ⟨x, hi, h⟩ := Option.map_eq_some_iff.mp h
    cases ht : x.todo with
    | nil =>
      rw [ht] at h
      cases h
      exact .watchEnds i x hi _ (Or.inr ⟨r, rfl, ht⟩)
    | cons job todo =>
      rw [ht] at h
      simp only at h
      split_ifs at h
      · cases h
        exact .watchSkip i x hi job todo ht r
      · cases h
        exact .watchFail i x hi job todo ht r
  | watchDies i =>
    obtain ⟨x, hi, h⟩ := Option.map_eq_some_iff.mp h
    cases h
    exact .watchEnds i x hi _ (Or.inl rfl)

theorem step_cases {env : Env} {w w' : World} {a : Act} (h : step env w a = some w') :
    ∃ st c, stmtOf env w a = some st ∧ World.Moves env w a st c ∧ w' = ⟨w.db.exec st, c⟩ := by
  obtain ⟨⟨st, c⟩, hact, rfl⟩ := Option.map_eq_some_iff.mp h
  refine ⟨st, c, ?_, act_cases hact, rfl⟩
  rw [stmtOf, hact]
  rfl

/-! ## What each step leaves alone -/

/-- Every status the code sets with `set_job_status` is terminal. -/
theorem World.Moves.setsFinal {env : Env} {w : World} {a : Act} {st : Stmt} {c : Ctl}
    (h : World.Moves env w a st c) : st.SetsFinal := by
  intro jobId s e hst
  cases h with
  | pass i p hi r m hm hr =>
    cases hm with
    | finish snap j todo hpc s' e' hd =>
      cases hst
      rcases jobDecision_finish hd with rfl | rfl <;> rfl
    | _ => cases hst
  | exec i x hi o m hm ho =>
    cases hm with
    | giveUp =>
      cases hst
      rfl
    | finish plan e' hpc t =>
      cases hst
      rcases Exec.finalStatus_cases plan e' with h | h | h <;> rw [h] <;> rfl
    | _ => cases hst
  | watchFail =>
    cases hst
    rfl
  | _ => cases hst

theorem World.Moves.evolves {env : Env} {w : World} {a : Act} {st : Stmt} {c : Ctl}
    (h : World.Moves env w a st c) : w.db.Evolves StaysTerminal (w.db.exec st) :=
  Db.evolves_exec w.db st fun _ _ => Stmt.terminal_row h.setsFinal

/-! ## Where the actors after a step come from -/

/-- Why a step starts a call of `advance_run` on a run. -/
inductive World.Starts (w : World) (runId : String) : Stmt → Prop
  | submit (req : RunRequest) (plan : Plan) (h : (w.db.createRun runId req plan).isSome = true) :
      Starts w runId (.createRun runId req plan)
  | advance (r : Run) (h : w.db.getRun runId = some r) : Starts w runId .read
  | settled (x : Exec) (hx : x ∈ w.ctl.execs) (h : x.body.runId = runId) : Starts w runId .read
  | failed (x : Watch) (hx : x ∈ w.ctl.watches) (j : JobRow) (hj : j ∈ x.todo) (h : j.runId = runId)
      (t : Option String) : Starts w runId (.setJobStatus j.id .failure t)

namespace World.Moves

variable {env : Env} {w : World} {a : Act} {st : Stmt} {c : Ctl}

theorem mem_spawn {ps : List Pass} {p : Pass} {runId : String}
    (h : p ∈ ps ++ [⟨runId, .jobsOf⟩]) : p ∈ ps ∨ (p.pc = .jobsOf ∧ p.runId = runId) := by
  rcases List.mem_append.mp h with h | h
  · exact Or.inl h
  · obtain rfl := List.mem_singleton.mp h
    exact Or.inr ⟨rfl, rfl⟩

/-- A pass was there, is one that moved, or has just been called. -/
theorem mem_passes (h : World.Moves env w a st c) {p' : Pass} (hp : p' ∈ c.passes) :
    p' ∈ w.ctl.passes ∨
      (∃ p ∈ w.ctl.passes, ∃ m, p.Moves env w.ctl.pool w.db m ∧ st = m.stmt ∧
        p'.runId = p.runId ∧ m.next = some p'.pc) ∨
      (p'.pc = .jobsOf ∧ w.Starts p'.runId st) := by
  cases h with
  | submit runId req plan hs =>
    refine (mem_spawn hp).imp_right fun hnew => Or.inr ⟨hnew.1, ?_⟩
    rw [hnew.2]
    exact .submit req plan hs
  | advance runId r hr =>
    refine (mem_spawn hp).imp_right fun hnew => Or.inr ⟨hnew.1, ?_⟩
    rw [hnew.2]
    exact .advance r hr
  | pass i p hi r m hm hr =>
    rcases Actors.mem_put hp with hold | hnew
    · exact Or.inl hold
    · obtain ⟨pc, hpc, rfl⟩ := Option.map_eq_some_iff.mp hnew
      exact Or.inr (Or.inl ⟨p, List.mem_of_getElem? hi, m, hm, rfl, rfl, hpc⟩)
  | passDies i p hi =>
    change p' ∈ Actors.put w.ctl.passes i none at hp
    exact Or.inl (Actors.mem_put_none hp)
  | exec i x hi o m hm ho =>
    cases hn : m.next with
    | goto pc =>
      rw [hn] at hp
      exact Or.inl hp
    | settled acked =>
      rw [hn] at hp
      have hst : m.stmt = .read := by
        cases hm with
        | settle | nak | failed => rfl
        | _ => cases hn
      refine (mem_spawn hp).imp_right fun hnew => Or.inr ⟨hnew.1, ?_⟩
      rw [hst, hnew.2]
      exact .settled x (List.mem_of_getElem? hi) rfl
  | watchFail i x hi job todo ht r =>
    refine (mem_spawn hp).imp_right fun hnew => Or.inr ⟨hnew.1, ?_⟩
    rw [hnew.2]
    exact .failed x (List.mem_of_getElem? hi) job (by rw [ht]; exact List.mem_cons_self) rfl _
  | _ => exact Or.inl hp

/-- A message was there, perhaps delivered since, or has just been published. -/
theorem mem_msgs (h : World.Moves env w a st c) {m' : QueueMsg} (hm' : m' ∈ c.msgs) :
    (∃ m ∈ w.ctl.msgs, m'.body = m.body ∧ m'.seq = m.seq ∧ m.delivered ≤ m'.delivered) ∨
      (∃ p ∈ w.ctl.passes, ∃ m, p.Moves env w.ctl.pool w.db m ∧ st = m.stmt ∧
        m.send = some (m'.route, m'.body) ∧ m'.seq = w.ctl.nextSeq) := by
  have hold : m' ∈ w.ctl.msgs → ∃ m ∈ w.ctl.msgs, m'.body = m.body ∧ m'.seq = m.seq ∧
      m.delivered ≤ m'.delivered := fun hm => ⟨m', hm, rfl, rfl, le_refl _⟩
  cases h with
  | pass i p hi r m hm hr =>
    cases hs : m.send with
    | none =>
      simp only [Ctl.passTo, hs, Ctl.send] at hm'
      exact Or.inl (hold hm')
    | some rm =>
      simp only [Ctl.passTo, hs, Ctl.send] at hm'
      rcases List.mem_append.mp hm' with hm' | hm'
      · exact Or.inl (hold hm')
      · obtain rfl := List.mem_singleton.mp hm'
        exact Or.inr ⟨p, List.mem_of_getElem? hi, m, hm, rfl, hs, rfl⟩
  | deliver m hm hd =>
    obtain ⟨m₀, hm₀, rfl⟩ := List.mem_map.mp hm'
    refine Or.inl ⟨m₀, hm₀, ?_⟩
    split_ifs
    · exact ⟨rfl, rfl, Nat.le_succ _⟩
    · exact ⟨rfl, rfl, le_refl _⟩
  | exec i x hi o m hm ho =>
    cases hn : m.next with
    | goto pc =>
      rw [hn] at hm'
      exact Or.inl (hold hm')
    | settled acked =>
      rw [hn] at hm'
      simp only [Ctl.execTo] at hm'
      split_ifs at hm'
      · exact Or.inl (hold (List.mem_filter.mp hm').1)
      · exact Or.inl (hold hm')
  | _ => exact Or.inl (hold hm')

/-- An execution was there, is one that moved, or has just been delivered. -/
theorem mem_execs (h : World.Moves env w a st c) {x' : Exec} (hx' : x' ∈ c.execs) :
    x' ∈ w.ctl.execs ∨
      (∃ x ∈ w.ctl.execs, ∃ m, x.Moves w.db m ∧ st = m.stmt ∧ m.next = .goto x'.pc ∧
        x' = { x with pc := x'.pc }) ∨
      (∃ m ∈ w.ctl.msgs, m.delivered < maxDeliver ∧ st = .read ∧
        x' = ⟨m.seq, m.body, m.delivered + 1, .getJob⟩) := by
  cases h with
  | pass i p hi r m hm hr =>
    refine Or.inl ?_
    cases hs : m.send with
    | none | some =>
      simp only [Ctl.passTo, hs, Ctl.send] at hx'
      exact hx'
  | deliver m hm hd =>
    rcases List.mem_append.mp hx' with hx' | hx'
    · exact Or.inl hx'
    · exact Or.inr (Or.inr ⟨m, hm, hd, rfl, List.mem_singleton.mp hx'⟩)
  | exec i x hi o m hm ho =>
    cases hn : m.next with
    | goto pc =>
      rw [hn] at hx'
      change x' ∈ Actors.put w.ctl.execs i (some { x with pc := pc }) at hx'
      rcases Actors.mem_put hx' with hx' | hx'
      · exact Or.inl hx'
      · cases hx'
        exact Or.inr (Or.inl ⟨x, List.mem_of_getElem? hi, m, hm, rfl, hn, rfl⟩)
    | settled acked =>
      rw [hn] at hx'
      change x' ∈ Actors.put w.ctl.execs i none at hx'
      exact Or.inl (Actors.mem_put_none hx')
  | execDies i x hi =>
    change x' ∈ Actors.put w.ctl.execs i none at hx'
    exact Or.inl (Actors.mem_put_none hx')
  | _ => exact Or.inl hx'

/-- What a watchdog still has to look at was there, or has just been read. -/
theorem mem_watches (h : World.Moves env w a st c) {x' : Watch} (hx' : x' ∈ c.watches)
    {j : JobRow} (hj : j ∈ x'.todo) :
    (∃ x ∈ w.ctl.watches, j ∈ x.todo) ∨
      (j ∈ w.db.jobs.rows ∧ w.db.waiting env.runnerWait j = true) := by
  have hold : x' ∈ w.ctl.watches → ∃ x ∈ w.ctl.watches, j ∈ x.todo := fun h => ⟨x', h, hj⟩
  have hput : ∀ (i : Nat) (x : Watch) (job : JobRow) (todo : List JobRow),
      w.ctl.watches[i]? = some x → x.todo = job :: todo →
      x' ∈ Actors.put w.ctl.watches i (some { x with todo := todo }) →
      ∃ x ∈ w.ctl.watches, j ∈ x.todo := by
    intro i x job todo hi ht hx'
    rcases Actors.mem_put hx' with hx' | hx'
    · exact hold hx'
    · cases hx'
      exact ⟨x, List.mem_of_getElem? hi, by rw [ht]; exact List.mem_cons_of_mem _ hj⟩
  cases h with
  | pass i p hi r m hm hr =>
    refine Or.inl (hold ?_)
    cases hs : m.send with
    | none | some =>
      simp only [Ctl.passTo, hs, Ctl.send] at hx'
      exact hx'
  | exec i x hi o m hm ho =>
    refine Or.inl (hold ?_)
    cases hn : m.next with
    | goto | settled =>
      rw [hn] at hx'
      exact hx'
  | watch x hx =>
    rcases List.mem_append.mp hx' with hx' | hx'
    · exact Or.inl (hold hx')
    · obtain rfl := List.mem_singleton.mp hx'
      rw [hx] at hj
      exact Or.inr (Db.mem_jobsWaiting hj)
  | watchSkip i x hi job todo ht r => exact Or.inl (hput i x job todo hi ht hx')
  | watchFail i x hi job todo ht r => exact Or.inl (hput i x job todo hi ht hx')
  | watchEnds i x hi =>
    change x' ∈ Actors.put w.ctl.watches i none at hx'
    exact Or.inl (hold (Actors.mem_put_none hx'))
  | _ => exact Or.inl (hold hx')

end World.Moves

end HeyoCi
