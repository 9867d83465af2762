import HeyoCi.Json
import HeyoCi.Lib.Machine
import HeyoCi.Text
import Mathlib.Logic.Function.Basic

/-!
# Tunnels

The daemon of a runner is reached through a tunnel. It is dialled at the first call for the runner, with a
ticket of the control plane, asked whether it serves without a credential, and kept in a cache. One lock
is held from the look into the cache to the answer.

* `TunnelError`: why there is no client; `connectionTicket`, `dialled`, `assertDaemonRequiresAuth`: what
  the answers of the control plane, of the dial and of the daemon come to;
* `Tunnels`, `Tunnels.machine`: the cache and the call that has the lock, one answer at a time;
* `Tunnels.Inv`, `inv_step`: which tunnels are open, and what is known of those that are used;
* **`tunnels_single`**: one tunnel for a runner at most, which was dialled for it and has not answered
  without a credential.
-/

namespace HeyoCi

namespace Runners

/-! ## Why there is no client -/

/-- The errors of a runner that are about its tunnel. -/
inductive TunnelError where
  | controlPlane (text : String)
  | unknownRunner (id : String)
  | noTicket (runner detail : String)
  | unreachable (runner reason : String)
  | daemonUnauthenticated (id : String)
  deriving Repr, DecidableEq

/-- How one reads. -/
def TunnelError.text : TunnelError → String
  | controlPlane msg => s!"heyvm control plane: {msg}"
  | unknownRunner id => s!"no daemon {Text.debugStr id} is registered to this account; it may have " ++
      "been unregistered while still a member of the network"
  | noTicket runner detail => s!"runner {Text.debugStr runner} has no P2P connection ticket ({detail}). " ++
      "It is registered but its heyvmd tunnel is not up — check that heyvmd is running on that host."
  | unreachable runner reason => s!"could not reach runner {Text.debugStr runner}: {reason}"
  | daemonUnauthenticated id => s!"runner {Text.debugStr id} serves its heyvm API without " ++
      "authentication, so its iroh ticket grants a host shell to anyone who has seen it. Start heyvmd " ++
      "with JWT_SECRET set, or set CI_ALLOW_UNAUTHENTICATED_RUNNERS=true if this host is local-only."

/-- `StatusCode::is_success`. -/
def isSuccess (status : Nat) : Bool := 200 ≤ status && status < 300

/-- `Value::as_str`. -/
def asStr : Json → Option String
  | .str s => some s
  | _ => none

/-- What asking for a ticket comes to: the body is null where it is no JSON. -/
inductive TicketReply where
  | noClient (e : String)
  | lost (e : String)
  | answered (status : Nat) (body : Json)

/-- `connection_ticket`. -/
def connectionTicket (runner : String) : TicketReply → Except TunnelError String
  | .noClient e => .error (.controlPlane s!"could not build a cloud client: {e}")
  | .lost e => .error (.unreachable runner s!"fetching a connection ticket: {e}")
  | .answered status body =>
    let member (key : String) := body.asObject.bind fun members => Json.Obj.get members key
    if isSuccess status then
      match ((member "connectionUrl").bind asStr).filter fun url => !url.isEmpty with
      | some url => .ok url
      | none => .error (.noTicket runner "the cloud returned an empty connectionUrl")
    else
      let detail := ((member "message" <|> member "error").bind asStr).getD "no detail"
      .error (match status with
        | 409 => .noTicket runner detail
        | 404 => .unknownRunner runner
        | other => .unreachable runner s!"connection-ticket returned {other}: {detail}")

/-- How a dial ends. -/
inductive DialReply where
  | timedOut
  | failed (e : String)
  | connected

def dialled (runner : String) : DialReply → Except TunnelError Unit
  | .timedOut => .error (.unreachable runner "the iroh dial did not complete within 90s")
  | .failed e => .error (.unreachable runner s!"iroh connect failed: {e}")
  | .connected => .ok ()

/-- How a request without a credential ends. -/
inductive ProbeReply where
  | noProbe (e : String)
  | lost
  | answered (status : Nat)
  deriving Repr, DecidableEq

/-- `assert_daemon_requires_auth`. -/
def assertDaemonRequiresAuth (allowUnauthenticated : Bool) (runner : String) :
    ProbeReply → Except TunnelError Unit
  | .noProbe e => .error (.unreachable runner s!"could not build an auth probe: {e}")
  -- a transport error proves nothing
  | .lost => .ok ()
  | .answered status =>
    if !isSuccess status || allowUnauthenticated then .ok ()
    else .error (.daemonUnauthenticated runner)

/-- An error names a runner. -/
def TunnelError.Names (runner : String) : TunnelError → Prop
  | controlPlane _ => False
  | unknownRunner id | daemonUnauthenticated id => id = runner
  | noTicket r _ | unreachable r _ => r = runner

/-- It names the runner, or there was no client of the control plane to ask about any. -/
def TunnelError.IsAbout (runner : String) (e : TunnelError) : Prop :=
  e.Names runner ∨ ∃ text : String, e = .controlPlane s!"could not build a cloud client: {text}"

theorem isAbout_connectionTicket {runner : String} {reply : TicketReply} {e : TunnelError}
    (h : connectionTicket runner reply = .error e) : e.IsAbout runner := by
  cases reply with
  | noClient text =>
    cases h
    exact Or.inr ⟨text, rfl⟩
  | lost text =>
    cases h
    exact Or.inl rfl
  | answered status body =>
    left
    simp only [connectionTicket] at h
    split at h
    · split at h
      · cases h
      · cases h
        rfl
    · cases h
      split <;> rfl

theorem names_dialled {runner : String} {reply : DialReply} {e : TunnelError}
    (h : dialled runner reply = .error e) : e.Names runner := by
  cases reply with
  | timedOut =>
    cases h
    rfl
  | failed text =>
    cases h
    rfl
  | connected => cases h

theorem names_assertDaemonRequiresAuth {allow : Bool} {runner : String} {reply : ProbeReply}
    {e : TunnelError} (h : assertDaemonRequiresAuth allow runner reply = .error e) :
    e.Names runner := by
  cases reply with
  | noProbe text =>
    cases h
    rfl
  | lost => cases h
  | answered status =>
    rw [assertDaemonRequiresAuth] at h
    split_ifs at h
    cases h
    rfl

/-- **A tunnel is used** if its daemon does not serve without a credential, or that is allowed, or nobody
knows. -/
theorem assertDaemonRequiresAuth_ok_iff {allow : Bool} {runner : String} {reply : ProbeReply} :
    assertDaemonRequiresAuth allow runner reply = .ok () ↔ reply = .lost ∨
      ∃ status, reply = .answered status ∧ (isSuccess status = false ∨ allow = true) := by
  cases reply with
  | noProbe text => simp [assertDaemonRequiresAuth]
  | lost => simp [assertDaemonRequiresAuth]
  | answered status =>
    rw [assertDaemonRequiresAuth]
    split_ifs with h
    · simpa using h
    · simpa using h

/-! ## The cache -/

/-- A client, with the tunnel it goes through. -/
structure Tunnel where
  runner : String
  ticket : String
  /-- How many were dialled before it. -/
  serial : Nat
  deriving Repr, DecidableEq

/-- What a call waits for. -/
inductive TunnelPc where
  | ticket
  | dial (ticket : String)
  | probe (tunnel : Tunnel)
  deriving Repr, DecidableEq

/-- The cache, and the call that has the lock. The other fields are read by nothing but the number of a
tunnel: the tickets that were given, the tunnels that were opened, those that were given up since, what
they answered to a request without a credential, and what the calls have returned. -/
structure Tunnels where
  cache : String → Option Tunnel
  call : Option (String × TunnelPc)
  tickets : List (String × String)
  opened : List Tunnel
  closed : List Tunnel
  probed : List (Tunnel × ProbeReply)
  returned : List (String × Except TunnelError Tunnel)

inductive TunnelLabel where
  /-- A call of `client_for` has got the lock. -/
  | clientFor (runner : String)
  | ticket (reply : TicketReply)
  | dial (reply : DialReply)
  | probe (reply : ProbeReply)
  /-- The caller goes away. -/
  | cancel
  | evict (runner : String)

namespace Tunnels

def start : Tunnels := ⟨fun _ => none, none, [], [], [], [], []⟩

variable (allowUnauthenticated : Bool) (s : Tunnels)

/-- The call ends with an error. -/
def fail (runner : String) (e : TunnelError) : Tunnels := { s with
  call := none
  returned := s.returned ++ [(runner, .error e)] }

/-- `client_for` and `evict`, from one answer to the next. -/
def step : TunnelLabel → Option Tunnels
  | .clientFor runner => match s.call with
    | some _ => none
    | none => match s.cache runner with
      | some tunnel => some { s with returned := s.returned ++ [(runner, .ok tunnel)] }
      | none => some { s with call := some (runner, .ticket) }
  | .ticket reply => match s.call with
    | some (runner, .ticket) => match connectionTicket runner reply with
      | .error e => some (s.fail runner e)
      | .ok ticket => some { s with
          call := some (runner, .dial ticket)
          tickets := s.tickets ++ [(runner, ticket)] }
    | _ => none
  | .dial reply => match s.call with
    | some (runner, .dial ticket) => match dialled runner reply with
      | .error e => some (s.fail runner e)
      | .ok () => some { s with
          call := some (runner, .probe ⟨runner, ticket, s.opened.length⟩)
          opened := s.opened ++ [⟨runner, ticket, s.opened.length⟩] }
    | _ => none
  | .probe reply => match s.call with
    | some (runner, .probe tunnel) =>
      match assertDaemonRequiresAuth allowUnauthenticated runner reply with
      | .error e => some { s.fail runner e with
          closed := s.closed ++ [tunnel]
          probed := s.probed ++ [(tunnel, reply)] }
      | .ok () => some { s with
          call := none
          cache := Function.update s.cache runner (some tunnel)
          probed := s.probed ++ [(tunnel, reply)]
          returned := s.returned ++ [(runner, .ok tunnel)] }
    | _ => none
  | .cancel => match s.call with
    | some (_, .probe tunnel) => some { s with call := none, closed := s.closed ++ [tunnel] }
    | some _ => some { s with call := none }
    | none => none
  | .evict runner => match s.call with
    | some _ => none
    | none => some { s with
        cache := Function.update s.cache runner none
        closed := s.closed ++ (s.cache runner).toList }

def machine : Machine Tunnels TunnelLabel where
  init s := s = start
  step := step allowUnauthenticated

/-! ## What is open, and what is known of it -/

/-- What a tunnel has answered each time that it was asked. -/
def answersOf (t : Tunnel) : List ProbeReply := (s.probed.filter fun p => p.1 = t).map Prod.snd

/-- A tunnel was opened and is not given up. A caller may still go through one that is. -/
def Open (t : Tunnel) : Prop := t ∈ s.opened ∧ t ∉ s.closed

/-- It was dialled with a ticket for its runner and asked once: its daemon did not serve without a
credential, or that is allowed, or there was no answer. -/
structure Vetted (t : Tunnel) : Prop where
  ticket : (t.runner, t.ticket) ∈ s.tickets
  probed : ∃ reply, s.answersOf t = [reply] ∧
    assertDaemonRequiresAuth allowUnauthenticated t.runner reply = .ok ()

/-- **The tunnels that are open are those of the cache and the one that is being asked.** -/
structure Inv : Prop where
  serial : ∀ t ∈ s.opened, t.serial < s.opened.length
  closed : ∀ t ∈ s.closed, t ∈ s.opened
  probed : ∀ t reply, (t, reply) ∈ s.probed → t ∈ s.opened
  kept : ∀ t, s.Open t → s.cache t.runner = some t ∨ s.call = some (t.runner, .probe t)
  cached : ∀ r t, s.cache r = some t → t.runner = r ∧ s.Open t ∧ s.Vetted allowUnauthenticated t
  calling : ∀ r pc, s.call = some (r, pc) → s.cache r = none
  dialling : ∀ r ticket, s.call = some (r, .dial ticket) → (r, ticket) ∈ s.tickets
  probing : ∀ r t, s.call = some (r, .probe t) → t.runner = r ∧ s.Open t ∧
    (r, t.ticket) ∈ s.tickets ∧ s.answersOf t = []
  returned : ∀ r t, (r, .ok t) ∈ s.returned → t.runner = r ∧ t ∈ s.opened ∧
    s.Vetted allowUnauthenticated t
  errors : ∀ r e, (r, .error e) ∈ s.returned → e.IsAbout r

section Steps

variable {allowUnauthenticated} {s} {s' : Tunnels}

theorem Vetted.mono {t : Tunnel} (h : s.Vetted allowUnauthenticated t)
    (htickets : ∀ x ∈ s.tickets, x ∈ s'.tickets)
    (hprobed : s'.answersOf t = s.answersOf t) :
    s'.Vetted allowUnauthenticated t where
  ticket := htickets _ h.ticket
  probed := by
    obtain ⟨reply, hreply, hok⟩ := h.probed
    exact ⟨reply, hprobed.trans hreply, hok⟩

/-- A tunnel has answered nothing when it is opened. -/
theorem Inv.answersOf_new (h : Inv allowUnauthenticated s) {t : Tunnel} (ht : t ∉ s.opened) :
    s.answersOf t = [] := by
  rw [answersOf, List.map_eq_nil_iff, List.filter_eq_nil_iff]
  rintro ⟨t', reply⟩ hp heq
  obtain rfl : t' = t := of_decide_eq_true heq
  exact ht (h.probed t' reply hp)

/-- Answers of one tunnel are added. -/
theorem answersOf_append {tunnel : Tunnel} (replies : List ProbeReply)
    (hprobed : s'.probed = s.probed ++ replies.map fun reply => (tunnel, reply)) (t : Tunnel) :
    s'.answersOf t = s.answersOf t ++ if t = tunnel then replies else [] := by
  rw [answersOf, answersOf, hprobed, List.filter_append, List.map_append]
  refine congrArg (_ ++ ·) ?_
  rw [List.filter_map, List.map_map]
  split_ifs with heq
  · subst heq
    simp [Function.comp_def]
  · simp [Function.comp_def, Ne.symm heq]

theorem inv_start : Inv allowUnauthenticated start :=
  ⟨nofun, nofun, nofun, nofun, nofun, nofun, nofun, nofun, nofun, nofun⟩

/-- A call goes on that neither opens nor closes a tunnel. -/
theorem Inv.moved (h : Inv allowUnauthenticated s) (hbefore : ∀ r t, s.call ≠ some (r, .probe t))
    {call : Option (String × TunnelPc)} {tickets new : List (String × String)}
    (answers : List (String × Except TunnelError Tunnel)) (htickets : tickets = s.tickets ++ new)
    (hafter : ∀ r t, call ≠ some (r, .probe t))
    (hcalling : ∀ r pc, call = some (r, pc) → s.cache r = none)
    (hdial : ∀ r ticket, call = some (r, .dial ticket) → (r, ticket) ∈ tickets)
    (hok : ∀ r t, (r, .ok t) ∈ answers → s.cache r = some t)
    (herror : ∀ r e, (r, .error e) ∈ answers → e.IsAbout r) :
    Inv allowUnauthenticated { s with call, tickets, returned := s.returned ++ answers } := by
  subst htickets
  have hvetted : ∀ t, s.Vetted allowUnauthenticated t →
      ({ s with call, tickets := s.tickets ++ new, returned := s.returned ++ answers } :
        Tunnels).Vetted allowUnauthenticated t :=
    fun t ht => ht.mono (fun x hx => List.mem_append_left _ hx) rfl
  exact
    { h with
      kept := fun t ht => Or.inl ((h.kept t ht).resolve_right (hbefore t.runner t))
      cached := fun r t hc => (h.cached r t hc).imp_right fun hc => hc.imp_right (hvetted t)
      calling := hcalling
      dialling := hdial
      probing := fun r t hcall => absurd hcall (hafter r t)
      returned := fun r t hmem => by
        rcases List.mem_append.mp hmem with hold | hnew
        · exact (h.returned r t hold).imp_right fun hr => hr.imp_right (hvetted t)
        · obtain ⟨hr, hopen, hv⟩ := h.cached r t (hok r t hnew)
          exact ⟨hr, hopen.1, hvetted t hv⟩
      errors := fun r e hmem => (List.mem_append.mp hmem).elim (h.errors r e) (herror r e) }

/-- A call that has no tunnel goes on or is given up. -/
theorem Inv.goesOn (h : Inv allowUnauthenticated s) (hbefore : ∀ r t, s.call ≠ some (r, .probe t))
    {call : Option (String × TunnelPc)} {tickets new : List (String × String)}
    (htickets : tickets = s.tickets ++ new) (hafter : ∀ r t, call ≠ some (r, .probe t))
    (hcalling : ∀ r pc, call = some (r, pc) → s.cache r = none)
    (hdial : ∀ r ticket, call = some (r, .dial ticket) → (r, ticket) ∈ tickets) :
    Inv allowUnauthenticated { s with call, tickets } := by
  have hmoved := h.moved hbefore [] htickets hafter hcalling hdial nofun nofun
  rwa [List.append_nil] at hmoved

/-- A call ends with an error before there is a tunnel. -/
theorem Inv.fail (h : Inv allowUnauthenticated s) (hbefore : ∀ r t, s.call ≠ some (r, .probe t))
    {runner : String} {e : TunnelError} (he : e.IsAbout runner) :
    Inv allowUnauthenticated (s.fail runner e) := by
  refine h.moved hbefore _ (List.append_nil _).symm nofun nofun nofun (fun r t hmem => ?_)
    fun r e' hmem => ?_
  · cases List.mem_singleton.mp hmem
  · cases List.mem_singleton.mp hmem
    exact he

/-- A tunnel is opened. -/
theorem inv_opened (h : Inv allowUnauthenticated s) {runner ticket : String}
    (hcall : s.call = some (runner, .dial ticket)) :
    Inv allowUnauthenticated { s with
      call := some (runner, .probe ⟨runner, ticket, s.opened.length⟩)
      opened := s.opened ++ [⟨runner, ticket, s.opened.length⟩] } := by
  have hnew : (⟨runner, ticket, s.opened.length⟩ : Tunnel) ∉ s.opened :=
    fun hmem => Nat.lt_irrefl _ (h.serial _ hmem)
  exact
    { h with
      serial := fun t ht => by
        change t.serial < (s.opened ++ [_]).length
        rw [List.length_append, List.length_singleton]
        rcases List.mem_append.mp ht with hold | hlast
        · exact Nat.lt_succ_of_lt (h.serial t hold)
        · obtain rfl := List.mem_singleton.mp hlast
          exact Nat.lt_succ_self _
      closed := fun t ht => List.mem_append_left _ (h.closed t ht)
      probed := fun t reply ht => List.mem_append_left _ (h.probed t reply ht)
      kept := fun t ht => by
        rcases List.mem_append.mp ht.1 with hold | hlast
        · have hcached := (h.kept t ⟨hold, ht.2⟩).resolve_right (by rw [hcall]; simp)
          exact Or.inl hcached
        · obtain rfl := List.mem_singleton.mp hlast
          exact Or.inr rfl
      cached := fun r t hc => by
        obtain ⟨hr, hopen, hv⟩ := h.cached r t hc
        exact ⟨hr, ⟨List.mem_append_left _ hopen.1, hopen.2⟩, hv.mono (fun _ => id) rfl⟩
      calling := by
        rintro r pc ⟨⟩
        exact h.calling _ _ hcall
      dialling := by
        rintro r ticket ⟨⟩
      probing := by
        rintro r t ⟨⟩
        exact ⟨rfl, ⟨List.mem_append_right _ (List.mem_singleton_self _),
          fun hclosed => hnew (h.closed _ hclosed)⟩, h.dialling _ _ hcall,
          h.answersOf_new hnew⟩
      returned := fun r t hmem => by
        obtain ⟨hr, hopen, hv⟩ := h.returned r t hmem
        exact ⟨hr, List.mem_append_left _ hopen, hv.mono (fun _ => id) rfl⟩ }

/-- What a tunnel answers that is being asked says nothing of the others. -/
theorem Inv.vetted_of_asked (h : Inv allowUnauthenticated s) {runner : String} {tunnel t : Tunnel}
    (hcall : s.call = some (runner, .probe tunnel)) (ht : s.Vetted allowUnauthenticated t)
    (replies : List ProbeReply) (htickets : s'.tickets = s.tickets)
    (hprobed : s'.probed = s.probed ++ replies.map fun reply => (tunnel, reply)) :
    s'.Vetted allowUnauthenticated t := by
  obtain ⟨-, -, -, hunasked⟩ := h.probing runner tunnel hcall
  have hne : t ≠ tunnel := by
    rintro rfl
    obtain ⟨reply, hreply, -⟩ := ht.probed
    rw [hunasked] at hreply
    cases hreply
  refine ht.mono (fun _ hx => htickets ▸ hx) ?_
  rw [answersOf_append replies hprobed, if_neg hne, List.append_nil]

/-- The tunnel that is being asked is kept. -/
theorem inv_accepted (h : Inv allowUnauthenticated s) {runner : String} {tunnel : Tunnel}
    {reply : ProbeReply} (hcall : s.call = some (runner, .probe tunnel))
    (hok : assertDaemonRequiresAuth allowUnauthenticated runner reply = .ok ()) :
    Inv allowUnauthenticated { s with
      call := none
      cache := Function.update s.cache runner (some tunnel)
      probed := s.probed ++ [(tunnel, reply)]
      returned := s.returned ++ [(runner, .ok tunnel)] } := by
  obtain ⟨hrunner, hopen, hticket, hunasked⟩ := h.probing runner tunnel hcall
  obtain rfl := hrunner
  have hvetted : ∀ s' : Tunnels, s'.tickets = s.tickets → s'.probed = s.probed ++ [(tunnel, reply)] →
      s'.Vetted allowUnauthenticated tunnel := fun s' ht hp =>
    { ticket := ht ▸ hticket
      probed := by
        refine ⟨reply, ?_, hok⟩
        rw [answersOf_append [reply] hp, hunasked, if_pos rfl, List.nil_append] }
  exact
    { h with
      probed := fun t reply' hmem => by
        rcases List.mem_append.mp hmem with hold | hnew
        · exact h.probed t reply' hold
        · cases List.mem_singleton.mp hnew
          exact hopen.1
      kept := fun t ht => by
        refine Or.inl ?_
        change Function.update s.cache tunnel.runner (some tunnel) t.runner = some t
        rcases h.kept t ht with hcached | hasked
        · rw [Function.update_of_ne, hcached]
          rintro heq
          rw [heq, h.calling _ _ hcall] at hcached
          cases hcached
        · rw [hcall, Option.some.injEq, Prod.mk.injEq, TunnelPc.probe.injEq] at hasked
          obtain ⟨-, rfl⟩ := hasked
          exact Function.update_self _ _ _
      cached := fun r t hc => by
        change Function.update s.cache tunnel.runner (some tunnel) r = some t at hc
        by_cases hr : r = tunnel.runner
        · rw [hr, Function.update_self] at hc
          cases hc
          exact ⟨hr.symm, hopen, hvetted _ rfl rfl⟩
        · rw [Function.update_of_ne hr] at hc
          obtain ⟨hr', hopen', hv⟩ := h.cached r t hc
          exact ⟨hr', hopen', h.vetted_of_asked hcall hv [reply] rfl rfl⟩
      calling := nofun
      dialling := nofun
      probing := nofun
      returned := fun r t hmem => by
        rcases List.mem_append.mp hmem with hold | hnew
        · obtain ⟨hr, hopen', hv⟩ := h.returned r t hold
          exact ⟨hr, hopen', h.vetted_of_asked hcall hv [reply] rfl rfl⟩
        · cases List.mem_singleton.mp hnew
          exact ⟨rfl, hopen.1, hvetted _ rfl rfl⟩
      errors := fun r e hmem => by
        rcases List.mem_append.mp hmem with hold | hnew
        · exact h.errors r e hold
        · cases List.mem_singleton.mp hnew }

/-- The tunnel that is being asked is dropped. -/
theorem Inv.dropped (h : Inv allowUnauthenticated s) {runner : String} {tunnel : Tunnel}
    (hcall : s.call = some (runner, .probe tunnel)) (replies : List ProbeReply)
    (errors : List TunnelError) (herrors : ∀ e ∈ errors, e.IsAbout runner) :
    Inv allowUnauthenticated { s with
      call := none
      closed := s.closed ++ [tunnel]
      probed := s.probed ++ replies.map fun reply => (tunnel, reply)
      returned := s.returned ++ errors.map fun e => (runner, .error e) } := by
  obtain ⟨hrunner, hopen, -, -⟩ := h.probing runner tunnel hcall
  exact
    { h with
      closed := fun t ht => by
        rcases List.mem_append.mp ht with hold | hnew
        · exact h.closed t hold
        · obtain rfl := List.mem_singleton.mp hnew
          exact hopen.1
      probed := fun t reply hmem => by
        rcases List.mem_append.mp hmem with hold | hnew
        · exact h.probed t reply hold
        · obtain ⟨_, -, heq⟩ := List.mem_map.mp hnew
          cases heq
          exact hopen.1
      kept := fun t ht => by
        obtain ⟨hold, hnew⟩ := not_or.mp (mt List.mem_append.mpr ht.2)
        refine Or.inl ((h.kept t ⟨ht.1, hold⟩).resolve_right fun hasked => ?_)
        rw [hcall, Option.some.injEq, Prod.mk.injEq, TunnelPc.probe.injEq] at hasked
        exact hnew (List.mem_singleton.mpr hasked.2.symm)
      cached := fun r t hc => by
        obtain ⟨hr, hopen', hv⟩ := h.cached r t hc
        refine ⟨hr, ⟨hopen'.1, fun hmem => ?_⟩, h.vetted_of_asked hcall hv replies rfl rfl⟩
        rcases List.mem_append.mp hmem with hold | hnew
        · exact hopen'.2 hold
        · obtain rfl := List.mem_singleton.mp hnew
          rw [← hr, hrunner, h.calling _ _ hcall] at hc
          cases hc
      calling := nofun
      dialling := nofun
      probing := nofun
      returned := fun r t hmem => by
        rcases List.mem_append.mp hmem with hold | hnew
        · obtain ⟨hr, hopen', hv⟩ := h.returned r t hold
          exact ⟨hr, hopen', h.vetted_of_asked hcall hv replies rfl rfl⟩
        · obtain ⟨_, -, heq⟩ := List.mem_map.mp hnew
          cases heq
      errors := fun r e hmem => by
        rcases List.mem_append.mp hmem with hold | hnew
        · exact h.errors r e hold
        · obtain ⟨e', he', heq⟩ := List.mem_map.mp hnew
          cases heq
          exact herrors _ he' }

/-- A tunnel leaves the cache. -/
theorem inv_evict (h : Inv allowUnauthenticated s) (hcall : s.call = none) (runner : String) :
    Inv allowUnauthenticated { s with
      cache := Function.update s.cache runner none
      closed := s.closed ++ (s.cache runner).toList } :=
  { h with
    closed := fun t ht => by
      rcases List.mem_append.mp ht with hold | hnew
      · exact h.closed t hold
      · exact (h.cached runner t (Option.mem_toList.mp hnew)).2.1.1
    kept := fun t ht => by
      obtain ⟨hold, hnew⟩ := not_or.mp (mt List.mem_append.mpr ht.2)
      have hcached := (h.kept t ⟨ht.1, hold⟩).resolve_right (by rw [hcall]; simp)
      refine Or.inl ((Function.update_of_ne ?_ _ _).trans hcached)
      rintro heq
      exact hnew (Option.mem_toList.mpr (heq ▸ hcached))
    cached := fun r t hc => by
      change Function.update s.cache runner none r = some t at hc
      by_cases hr : r = runner
      · rw [hr, Function.update_self] at hc
        cases hc
      · rw [Function.update_of_ne hr] at hc
        obtain ⟨hrunner, hopen, hv⟩ := h.cached r t hc
        refine ⟨hrunner, ⟨hopen.1, fun hmem => ?_⟩, hv.mono (fun _ => id) rfl⟩
        rcases List.mem_append.mp hmem with hold | hnew
        · exact hopen.2 hold
        · have hother := (h.cached runner t (Option.mem_toList.mp hnew)).1
          exact hr (hrunner.symm.trans hother)
    calling := fun r pc hsome => by
      rw [hcall] at hsome
      cases hsome
    returned := fun r t hmem => by
      obtain ⟨hr, hopen, hv⟩ := h.returned r t hmem
      exact ⟨hr, hopen, hv.mono (fun _ => id) rfl⟩
    probing := fun r t hsome => by
      rw [hcall] at hsome
      cases hsome }

theorem inv_step (a : TunnelLabel) (h : Inv allowUnauthenticated s)
    (hs : s.step allowUnauthenticated a = some s') : Inv allowUnauthenticated s' := by
  cases a with
  | clientFor runner =>
    simp only [step] at hs
    split at hs
    · cases hs
    · rename_i hcall
      have hbefore : ∀ r t, s.call ≠ some (r, .probe t) := by
        rw [hcall]
        exact nofun
      split at hs
      · rename_i tunnel hcached
        cases hs
        refine h.moved hbefore _ (List.append_nil _).symm hbefore h.calling h.dialling
          (fun r t hmem => ?_) fun r e hmem => ?_
        · cases List.mem_singleton.mp hmem
          exact hcached
        · cases List.mem_singleton.mp hmem
      · rename_i hcached
        cases hs
        refine h.goesOn hbefore (List.append_nil _).symm nofun ?_ nofun
        rintro r pc ⟨⟩
        exact hcached
  | ticket reply =>
    simp only [step] at hs
    split at hs
    · rename_i runner hcall
      have hbefore : ∀ r t, s.call ≠ some (r, .probe t) := by
        rw [hcall]
        exact nofun
      split at hs
      · rename_i e herror
        cases hs
        exact h.fail hbefore (isAbout_connectionTicket herror)
      · rename_i ticket hticket
        cases hs
        refine h.goesOn hbefore rfl nofun ?_ ?_
        · rintro r pc ⟨⟩
          exact h.calling _ _ hcall
        · rintro r ticket ⟨⟩
          exact List.mem_append_right _ (List.mem_singleton_self _)
    · cases hs
  | dial reply =>
    simp only [step] at hs
    split at hs
    · rename_i runner ticket hcall
      split at hs
      · rename_i e herror
        cases hs
        refine h.fail ?_ (Or.inl (names_dialled herror))
        rw [hcall]
        exact nofun
      · cases hs
        exact inv_opened h hcall
    · cases hs
  | probe reply =>
    simp only [step] at hs
    split at hs
    · rename_i runner tunnel hcall
      split at hs
      · rename_i e herror
        cases hs
        refine h.dropped hcall [reply] [e] fun e' he' => ?_
        obtain rfl := List.mem_singleton.mp he'
        exact Or.inl (names_assertDaemonRequiresAuth herror)
      · rename_i hok
        cases hs
        exact inv_accepted h hcall hok
    · cases hs
  | cancel =>
    simp only [step] at hs
    split at hs
    · rename_i runner tunnel hcall
      cases hs
      have hdropped := h.dropped hcall [] [] nofun
      rwa [List.map_nil, List.map_nil, List.append_nil, List.append_nil] at hdropped
    · rename_i pc hnot hcall
      cases hs
      exact h.goesOn (fun r t heq => hnot r t (Option.some.inj (hcall.symm.trans heq)))
        (List.append_nil _).symm nofun nofun nofun
    · cases hs
  | evict runner =>
    simp only [step] at hs
    split at hs
    · cases hs
    · rename_i hcall
      cases hs
      exact inv_evict h hcall runner

theorem inv_reachable (h : (machine allowUnauthenticated).Reachable Machine.anyStep s) :
    Inv allowUnauthenticated s := by
  refine h.inv (Inv allowUnauthenticated) ?_ fun _ a _ _ hI _ hs => inv_step a hI hs
  rintro _ rfl
  exact inv_start

/-- **There is one tunnel for a runner at most**, in every run: it is in the cache or is being asked. A
call is given one that was dialled with a ticket of its runner and was asked exactly once, without a
credential; the daemon refused, or that it need not is allowed, or there was no answer. The error of a call
names its runner, if the control plane could be asked at all. -/
theorem tunnels_single (h : (machine allowUnauthenticated).Reachable Machine.anyStep s) :
    (∀ t t', s.Open t → s.Open t' → t.runner = t'.runner → t = t') ∧
    (∀ t, s.Open t ↔ s.cache t.runner = some t ∨ s.call = some (t.runner, .probe t)) ∧
    (∀ r t, s.cache r = some t → t.runner = r) ∧
    (∀ r t, (r, .ok t) ∈ s.returned → t.runner = r ∧ (r, t.ticket) ∈ s.tickets ∧
      ∃ reply, s.answersOf t = [reply] ∧ (reply = .lost ∨
        ∃ status, reply = .answered status ∧ (isSuccess status = false ∨ allowUnauthenticated = true))) ∧
    ∀ r e, (r, .error e) ∈ s.returned → e.IsAbout r := by
  have hinv := inv_reachable h
  refine ⟨fun t t' ht ht' heq => ?_, fun t => ⟨hinv.kept t, ?_⟩, fun r t hc => (hinv.cached r t hc).1,
    fun r t hmem => ?_, hinv.errors⟩
  · have ht := hinv.kept t ht
    have ht' := hinv.kept t' ht'
    rw [heq] at ht
    rcases ht with hc | hcall <;> rcases ht' with hc' | hcall'
    · exact Option.some.inj (hc.symm.trans hc')
    · rw [hinv.calling _ _ hcall'] at hc
      cases hc
    · rw [hinv.calling _ _ hcall] at hc'
      cases hc'
    · have hsame := hcall.symm.trans hcall'
      rw [Option.some.injEq, Prod.mk.injEq, TunnelPc.probe.injEq] at hsame
      exact hsame.2
  · rintro (hc | hcall)
    · exact (hinv.cached _ t hc).2.1
    · exact (hinv.probing _ t hcall).2.1
  · obtain ⟨rfl, -, hvetted⟩ := hinv.returned r t hmem
    obtain ⟨reply, hreply, hok⟩ := hvetted.probed
    exact ⟨rfl, hvetted.ticket, reply, hreply, assertDaemonRequiresAuth_ok_iff.mp hok⟩

end Steps

section Unasked

/-- A tunnel whose daemon does not answer in time when it is asked. -/
private def unasked : List TunnelLabel := [.clientFor "hd-1",
  .ticket (.answered 200 (.obj [("connectionUrl", .str "iroh-1")])), .dial .connected, .probe .lost,
  .clientFor "hd-1"]

private def unaskedTunnel : Tunnel := ⟨"hd-1", "iroh-1", 0⟩

/-- It is used all the same, by this call and the next. -/
theorem tunnels_single_unasked : ∃ s, (machine false).Reachable Machine.anyStep s ∧
    s.returned = [("hd-1", .ok unaskedTunnel), ("hd-1", .ok unaskedTunnel)] ∧
    s.answersOf unaskedTunnel = [.lost] := by
  have hticket : connectionTicket "hd-1" (.answered 200 (.obj [("connectionUrl", .str "iroh-1")])) =
      .ok "iroh-1" := by
    have hurl : (some "iroh-1").filter (fun url : String => !url.isEmpty) = some "iroh-1" := by decide
    simp [connectionTicket, isSuccess, Json.asObject, Json.Obj.get, asStr, hurl]
  have hrun : ((machine false).run start unasked).map (fun s => (s.returned, s.probed)) =
      some ([("hd-1", .ok unaskedTunnel), ("hd-1", .ok unaskedTunnel)], [(unaskedTunnel, .lost)]) := by
    simp [unasked, Machine.run, machine, step, start, hticket, dialled, assertDaemonRequiresAuth,
      unaskedTunnel]
  obtain ⟨s, hs, heq⟩ := Option.map_eq_some_iff.mp hrun
  obtain ⟨hreturned, hprobed⟩ := Prod.mk.inj heq
  have hreach := Machine.reachable_of_run (m := machine false) rfl hs
  refine ⟨s, hreach, hreturned, ?_⟩
  have hmem : ("hd-1", Except.ok unaskedTunnel) ∈ s.returned := by
    rw [hreturned]
    exact List.mem_cons_self
  obtain ⟨-, -, reply, hreply, -⟩ := (tunnels_single hreach).2.2.2.1 _ _ hmem
  have hlost : ProbeReply.lost ∈ s.answersOf unaskedTunnel := by
    refine List.mem_map.mpr ⟨(unaskedTunnel, .lost), List.mem_filter.mpr ⟨?_, by decide⟩, rfl⟩
    rw [hprobed]
    exact List.mem_cons_self
  rw [hreply] at hlost ⊢
  rw [List.mem_singleton.mp hlost]

end Unasked

end Tunnels

end Runners

end HeyoCi
