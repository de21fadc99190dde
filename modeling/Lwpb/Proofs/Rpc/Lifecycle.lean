/-
The lifecycle of the socket transports.

A transport is closed when its socket field is -1. An open that returns an
error, and every close, should leave it closed, and nothing should be
closed or freed twice, or used when it has been freed. Two slips stand
against this: a close of an open transport compares its field with -1
instead of setting it, and an open that fails behind `socket()` leaves the
field set. In a run without either both hold (`transport_lifecycle_iff`);
one of them breaks the first.

A transport holds its socket, its connections and its receive buffers; a
clean call of it keeps to what it holds (`clientStep_keeps`,
`serverStep_keeps`), and a run of clean calls therefore to what was
obtained (`trail_keeps`).
-/
import Lwpb.Rpc.Transport
import Mathlib.Algebra.Order.Group.Multiset

namespace Lwpb

open Machine Traced

variable {σ τ ο υ : Type}

-- =============================================================== properties

/-- Behind the call, with this code, the transport has to be closed. -/
def TransportCall.MustClose (ret : Option Err) : TransportCall ο υ → Prop
  | .openCall _ => ret ≠ some .ok
  | .closeCall => True
  | .updateCall _ => False

/-- If the transport has to be closed behind the call, it is. -/
def CallMade.LeavesClosed (socket : τ → Option Nat) (m : CallMade τ ο υ) :
    Prop :=
  ∀ t ret es, m.outcome = .back (t, ret) es → m.call.MustClose ret →
    socket t = none

/-- A run that closes what it has to, gives back everything once at most,
and uses nothing it gave back. -/
structure Lifecycle (socket : τ → Option Nat) (run : List (CallMade τ ο υ)) :
    Prop where
  closed : ∀ m ∈ run, m.LeavesClosed socket
  sound : ledger.Accepts 0 (trail run)

/-- Every descriptor is closed, and every buffer freed, as often as it was
obtained at most. -/
theorem Lifecycle.released_once {socket : τ → Option Nat}
    {run : List (CallMade τ ο υ)} (h : Lifecycle socket run) (a : Handle) :
    (trail run).count (.release a) ≤ (trail run).count (.acquire a) := by
  have hle := releases_le h.sound a
  rwa [Multiset.count_zero, Nat.zero_add] at hle

/-- `socket()` comes to a socket, and a call behind it fails. -/
def ClientOpen.FailsLate (sys : ClientOpen) : Prop :=
  sys.alloc.isSome ∧ sys.getaddrinfo ∧ sys.socket.isSome ∧
    ¬ (sys.setsockopt ∧ sys.connect)

/-- `socket()` comes to a socket, and a call behind it fails; where `fcntl`
fails, the open does not return. -/
def ServerOpen.FailsLate (sys : ServerOpen) : Prop :=
  sys.getaddrinfo ∧ sys.socket.isSome ∧
    ¬ (sys.setsockopt ∧ (sys.nonblock → sys.bind ∧ sys.listen))

/-- The call is neither an open that fails late nor a close of an open
transport. -/
def CleanCall (socket : τ → Option Nat) (failsLate : ο → Prop) (t : τ) :
    TransportCall ο υ → Prop
  | .openCall sys => socket t = none → ¬ failsLate sys
  | .closeCall => socket t = none
  | .updateCall _ => True

-- ===================================================================== runs

section Runs

variable {step : τ → TransportCall ο υ → Sys (τ × Option Err)}
  {Good : τ → TransportCall ο υ → Prop} {held : τ → Multiset Handle}

/-- Calls that keep to what the transport holds keep to what there is. -/
theorem trail_keeps
    (hkeeps : ∀ t c, Good t c → Keeps (held t) (step t c) fun r => held r.1)
    {cs : List (TransportCall ο υ)} {t : τ} {own : Multiset Handle}
    (hown : held t ≤ own)
    (hgood : ∀ m ∈ perform step t cs, Good m.before m.call) :
    ledger.Accepts own (trail (perform step t cs)) := by
  induction cs generalizing t own with
  | nil => trivial
  | cons c cs ih =>
      obtain ⟨hacc, hafter⟩ := (hkeeps t c
        (hgood _ List.mem_cons_self)).weaken hown fun _ => le_refl _
      unfold perform trail
      rw [List.flatMap_cons]
      refine Watch.accepts_append.mpr ⟨hacc, ?_⟩
      unfold perform at hgood
      cases hstep : step t c with
      | gone es => trivial
      | back r es =>
          rw [hstep] at hgood hafter
          exact ih (hafter r es rfl) fun m hm =>
            hgood m (List.mem_cons_of_mem _ hm)

/-- What was made was made by the step. -/
theorem perform_outcome {cs : List (TransportCall ο υ)} {t : τ}
    {m : CallMade τ ο υ} (hm : m ∈ perform step t cs) :
    m.outcome = step m.before m.call := by
  induction cs generalizing t with
  | nil => cases hm
  | cons c cs ih =>
      unfold perform at hm
      rcases List.mem_cons.mp hm with rfl | hm
      · rfl
      · cases hstep : step t c with
        | gone es =>
            rw [hstep] at hm
            cases hm
        | back r es =>
            rw [hstep] at hm
            exact ih hm

/-- A transport whose close leaves the field as it is, and whose open sets
it when it fails late or succeeds, leaves closed what it has to in clean
calls only. -/
theorem leavesClosed_iff {socket : τ → Option Nat} {failsLate : ο → Prop}
    (hlate : ∀ t sys, socket t = none → failsLate sys →
      ∃ t' es, step t (.openCall sys) = .back (t', some .netInit) es ∧
        socket t' ≠ none)
    (hearly : ∀ t sys t' ret es, socket t = none → ¬ failsLate sys →
      step t (.openCall sys) = .back (t', ret) es → ret ≠ some .ok →
      socket t' = none)
    (hopened : ∀ t sys, socket t ≠ none →
      step t (.openCall sys) = .back (t, some .ok) [])
    (hclose : ∀ t, ∃ t' ret es, step t .closeCall = .back (t', ret) es ∧
      socket t' = socket t) (t : τ) (c : TransportCall ο υ) :
    CallMade.LeavesClosed socket ⟨t, c, step t c⟩ ↔
      CleanCall socket failsLate t c := by
  cases c with
  | openCall sys =>
      constructor
      · intro h ht hfails
        obtain ⟨t', es, hback, hopen⟩ := hlate t sys ht hfails
        exact hopen (h t' _ es hback nofun)
      · intro h t' ret es hback hret
        by_cases ht : socket t = none
        · exact hearly t sys t' ret es ht (h ht) hback hret
        · rw [hopened t sys ht] at hback
          cases hback
          exact absurd rfl hret
  | closeCall =>
      obtain ⟨t₁, ret₁, es₁, hback₁, hkept⟩ := hclose t
      constructor
      · exact fun h => hkept.symm.trans (h t₁ ret₁ es₁ hback₁ trivial)
      · intro h t' ret es hback _
        rw [hback₁] at hback
        cases hback
        exact hkept.trans h
  | updateCall sys => exact iff_of_true (fun _ _ _ _ h => h.elim) trivial

/-- A lifecycle is a matter of the single calls, where those that close
what they have to keep to what the transport holds. -/
theorem lifecycle_iff {socket : τ → Option Nat}
    (hclosed : ∀ t c, CallMade.LeavesClosed socket ⟨t, c, step t c⟩ ↔ Good t c)
    (hkeeps : ∀ t c, Good t c → Keeps (held t) (step t c) fun r => held r.1)
    {t : τ} (ht : held t = 0) (cs : List (TransportCall ο υ)) :
    Lifecycle socket (perform step t cs) ↔
      ∀ m ∈ perform step t cs, Good m.before m.call := by
  have hmade : ∀ m ∈ perform step t cs,
      m.LeavesClosed socket ↔ Good m.before m.call := by
    intro m hm
    rw [← hclosed m.before m.call, ← perform_outcome hm]
  constructor
  · exact fun h m hm => (hmade m hm).mp (h.closed m hm)
  · exact fun h => ⟨fun m hm => (hmade m hm).mpr (h m hm),
      trail_keeps hkeeps ht.le h⟩

end Runs

-- ================================================================== handles

/-- A descriptor, if there is one. -/
def fdOf : Option Nat → Multiset Handle
  | none => 0
  | some n => {.fd n}

/-- A buffer, if there is one. -/
def bufOf : Option Nat → Multiset Handle
  | none => 0
  | some b => {.buf b}

/-- A handle that is obtained is held. -/
theorem emit_acquire (a : Handle) :
    Keeps (0 : Multiset Handle) (emit (.acquire a)) fun _ => {a} :=
  Keeps.emit trivial

/-- A buffer that is used is still held. -/
theorem useBuf_keeps (b : Option Nat) :
    Keeps (bufOf b) (useBuf b) fun _ => bufOf b := by
  cases b with
  | none => exact .pure (le_refl _)
  | some b => exact .emit (Multiset.mem_singleton_self _)

/-- A socket that is closed is held no more. -/
theorem closeFd_keeps (s : Option Nat) :
    Keeps (fdOf s) (closeFd s) fun _ => 0 := by
  cases s with
  | none => exact .pure (le_refl _)
  | some n =>
      exact (Keeps.emit (Multiset.mem_singleton_self _)).weaken (le_refl _)
        fun _ => Multiset.zero_le _

-- =============================================================== the client

/-- What a client holds. -/
def ClientTransport.held (t : ClientTransport) : Multiset Handle :=
  match t.socket with
  | none => 0
  | some n => fdOf (some n) + bufOf t.buf

/-- A client without a socket holds nothing that must be given back. -/
theorem ClientTransport.held_le {t : ClientTransport} {own : Multiset Handle}
    (h : t.socket = none) : t.held ≤ own := by
  unfold held
  rw [h]
  exact Multiset.zero_le own

/-- Where a socket is opened, every call behind it succeeds. -/
theorem clientOpen_keeps {t : ClientTransport} {sys : ClientOpen}
    (h : t.socket = none → ¬ sys.FailsLate) :
    Keeps t.held (clientOpen t sys) fun r => r.1.held := by
  unfold clientOpen
  split
  · exact .pure (le_refl _)
  · next hsome =>
      have hnone : t.socket = none := by simpa using hsome
      have hlate := h hnone
      refine Keeps.of_zero ?_
      cases halloc : sys.alloc with
      | none => exact .pure (ClientTransport.held_le hnone)
      | some block =>
          obtain ⟨b, len⟩ := block
          refine (emit_acquire _).bind fun _ => ?_
          cases hinfo : sys.getaddrinfo with
          | false =>
              cases sys.strayFreed with
              | false => exact .stop
              | true => exact .pure (ClientTransport.held_le hnone)
          | true =>
              cases hsock : sys.socket with
              | none => exact .pure (ClientTransport.held_le rfl)
              | some n =>
                  obtain ⟨hopt, hconnect⟩ :
                      sys.setsockopt ∧ sys.connect := by
                    by_contra hfail
                    exact hlate ⟨by rw [halloc]; rfl, hinfo,
                      by rw [hsock]; rfl, hfail⟩
                  have hopened : Keeps {Handle.buf b}
                      (emit (.acquire (.fd n)))
                      fun _ => {Handle.buf b} + {Handle.fd n} :=
                    ((emit_acquire (.fd n)).frame {Handle.buf b}).weaken
                      (by rw [Multiset.add_zero]) fun _ => le_refl _
                  refine hopened.bind fun _ => ?_
                  rw [hopt, hconnect]
                  cases sys.nonblock with
                  | false => exact .stop
                  | true => exact .pure (by rw [Multiset.add_comm]; rfl)

/-- An update of the client holds what the client holds, before and behind it.
-/
theorem clientUpdate_keeps (services : List ServiceDesc) (t : ClientTransport)
    (sys : Select (Locals × Bytes)) :
    Keeps t.held (clientTransportUpdate services t sys)
      fun r => r.1.held := by
  unfold clientTransportUpdate
  cases hsock : t.socket with
  | none => exact .pure (le_refl _)
  | some n =>
      cases sys with
      | failed => exact .stop
      | timeout => exact .pure (le_refl _)
      | ready data =>
          obtain ⟨l, chunk⟩ := data
          have hheld : t.held = fdOf (some n) + bufOf t.buf := by
            unfold ClientTransport.held
            rw [hsock]
          rw [hheld]
          refine ((useBuf_keeps t.buf).frame (fdOf (some n))).bind fun _ => ?_
          cases clientUpdate services l t.client (some chunk) with
          | abort => exact .stop
          | fault f => exact .stop
          | done c actions => exact .pure (le_refl _)

/-- A clean call of a client keeps to what the client holds. -/
theorem clientStep_keeps (services : List ServiceDesc) (t : ClientTransport)
    (c : TransportCall ClientOpen (Select (Locals × Bytes)))
    (h : CleanCall (·.socket) ClientOpen.FailsLate t c) :
    Keeps t.held (clientStep services t c) fun r => r.1.held := by
  cases c with
  | openCall sys => exact clientOpen_keeps h
  | closeCall =>
      have hnone : t.socket = none := h
      unfold clientStep clientClose
      rw [hnone]
      exact .pure (le_refl _)
  | updateCall sys => exact clientUpdate_keeps services t sys

/-- An open that fails late returns an error and leaves the socket. -/
theorem clientOpen_late {t : ClientTransport} {sys : ClientOpen}
    (ht : t.socket = none) (h : sys.FailsLate) :
    ∃ t' es, clientOpen t sys = .back (t', some .netInit) es ∧
      t'.socket ≠ none := by
  obtain ⟨halloc, hinfo, hsock, hfail⟩ := h
  obtain ⟨⟨b, len⟩, halloc⟩ := Option.isSome_iff_exists.mp halloc
  obtain ⟨n, hsock⟩ := Option.isSome_iff_exists.mp hsock
  unfold clientOpen
  rw [ht, halloc, hinfo, hsock]
  cases hopt : sys.setsockopt with
  | false => exact ⟨_, _, rfl, nofun⟩
  | true =>
      cases hconnect : sys.connect with
      | false => exact ⟨_, _, rfl, nofun⟩
      | true => exact absurd ⟨hopt, hconnect⟩ hfail

/-- Any other open that returns an error leaves none. -/
theorem clientOpen_early {t t' : ClientTransport} {sys : ClientOpen}
    {ret : Option Err} {es : List (Entry Handle)} (ht : t.socket = none)
    (h : ¬ sys.FailsLate) (hback : clientOpen t sys = .back (t', ret) es)
    (hret : ret ≠ some .ok) : t'.socket = none := by
  unfold clientOpen at hback
  rw [ht] at hback
  cases halloc : sys.alloc with
  | none =>
      rw [halloc] at hback
      cases hback
      rfl
  | some block =>
      obtain ⟨b, len⟩ := block
      rw [halloc] at hback
      cases hinfo : sys.getaddrinfo with
      | false =>
          rw [hinfo] at hback
          cases hstray : sys.strayFreed with
          | false => rw [hstray] at hback; cases hback
          | true => rw [hstray] at hback; cases hback; rfl
      | true =>
          cases hsock : sys.socket with
          | none => rw [hinfo, hsock] at hback; cases hback; rfl
          | some n =>
              obtain ⟨hopt, hconnect⟩ : sys.setsockopt ∧ sys.connect := by
                by_contra hfail
                exact h ⟨by rw [halloc]; rfl, hinfo, by rw [hsock]; rfl, hfail⟩
              rw [hinfo, hsock, hopt, hconnect] at hback
              cases hnonblock : sys.nonblock with
              | false => rw [hnonblock] at hback; cases hback
              | true =>
                  rw [hnonblock] at hback
                  cases hback
                  exact absurd rfl hret

/-- An open client is not opened again. -/
theorem clientOpen_opened {t : ClientTransport} (sys : ClientOpen)
    (ht : t.socket ≠ none) : clientOpen t sys = .back (t, some .ok) [] := by
  obtain ⟨n, hsock⟩ := Option.ne_none_iff_exists'.mp ht
  unfold clientOpen
  rw [hsock]
  rfl

/-- A close leaves the field as it is. -/
theorem clientClose_socket (t : ClientTransport) :
    ∃ t' ret es, clientClose t = .back (t', ret) es ∧
      t'.socket = t.socket := by
  unfold clientClose
  cases hsock : t.socket with
  | none => exact ⟨t, _, _, rfl, hsock⟩
  | some n =>
      cases t.buf with
      | none => exact ⟨t, _, _, rfl, hsock⟩
      | some b => exact ⟨t, _, _, rfl, hsock⟩

/-- A call of a client leaves it closed, if it has to, exactly if it is
clean. -/
theorem clientStep_leavesClosed (services : List ServiceDesc)
    (t : ClientTransport)
    (c : TransportCall ClientOpen (Select (Locals × Bytes))) :
    CallMade.LeavesClosed (·.socket) ⟨t, c, clientStep services t c⟩ ↔
      CleanCall (·.socket) ClientOpen.FailsLate t c := by
  refine leavesClosed_iff (fun t sys ht hfails => ?_)
    (fun t sys t' ret es ht hfails hback hret => ?_)
    (fun t sys ht => ?_) (fun t => ?_) t c
  · exact clientOpen_late ht hfails
  · exact clientOpen_early ht hfails hback hret
  · exact clientOpen_opened sys ht
  · exact clientClose_socket t

-- =============================================================== the server

/-- What a connection holds. -/
def ServerConn.held (c : ServerConn) : Multiset Handle :=
  fdOf c.socket + bufOf c.buf

/-- What connections hold. -/
def heldByConns : List ServerConn → Multiset Handle
  | [] => 0
  | c :: conns => heldByConns conns + c.held

/-- What a server holds. -/
def ServerTransport.held (t : ServerTransport σ) : Multiset Handle :=
  fdOf t.socket + heldByConns t.conns

/-- A connection that is closed holds neither its socket nor its buffer. -/
theorem closeConnection_keeps (numConns : Int) (c : ServerConn) :
    Keeps c.held (closeConnection numConns c) fun r => r.1.held := by
  have hclose := (closeFd_keeps c.socket).frame (bufOf c.buf)
  rw [Multiset.add_comm] at hclose
  refine hclose.bind fun _ => .pure ?_
  show 0 + bufOf c.buf ≤ bufOf c.buf + 0
  rw [Multiset.add_comm]

/-- A connection gets a buffer where it has none, and then holds it. -/
theorem connBuf_keeps (alloc : AllocBuf) (c : ServerConn) :
    Keeps c.held (connBuf alloc c) fun c' => c'.held := by
  unfold connBuf
  cases hbuf : c.buf with
  | some b => exact .pure (le_refl _)
  | none =>
      cases alloc with
      | none => exact .pure (le_refl _)
      | some block =>
          obtain ⟨b, len⟩ := block
          have hheld : c.held = fdOf c.socket + 0 := by
            unfold ServerConn.held
            rw [hbuf]
            rfl
          rw [hheld]
          exact ((emit_acquire (.buf b)).frame (fdOf c.socket)).bind fun _ =>
            .pure (le_refl _)

/-- The socket of a new connection goes to a connection, or is closed. -/
theorem takeConnection_keeps (n : Nat) (alloc : AllocBuf) (numConns : Int)
    (conns : List ServerConn) :
    Keeps ({Handle.fd n} + heldByConns conns)
      (takeConnection n alloc numConns conns) fun r => heldByConns r.1 := by
  induction conns with
  | nil => exact (closeFd_keeps (some n)).bind fun _ => .pure (le_refl _)
  | cons c conns ih =>
      unfold takeConnection
      cases hsock : c.socket with
      | none =>
          have hheld : {Handle.fd n} + heldByConns (c :: conns)
              = heldByConns conns
                + ServerConn.held { c with socket := some n } := by
            show {Handle.fd n} + (heldByConns conns
                + (fdOf c.socket + bufOf c.buf))
              = heldByConns conns + ({Handle.fd n} + bufOf c.buf)
            rw [hsock]
            show {Handle.fd n} + (heldByConns conns + (0 + bufOf c.buf)) = _
            rw [Multiset.zero_add]
            ac_rfl
          rw [hheld]
          exact ((connBuf_keeps alloc _).frame (heldByConns conns)).bind
            fun _ => .pure (le_refl _)
      | some k =>
          have hheld : {Handle.fd n} + heldByConns (c :: conns)
              = c.held + ({Handle.fd n} + heldByConns conns) := by
            show {Handle.fd n} + (heldByConns conns + c.held) = _
            ac_rfl
          rw [hheld]
          refine (ih.frame c.held).bind fun r => .pure ?_
          exact (Multiset.add_comm _ _).le

/-- A new connection is held in the first free place, or closed at once where
there is none. -/
theorem handleNewConnection_keeps (t : ServerTransport σ)
    (sys : NewConnection) :
    Keeps t.held (handleNewConnection t sys) fun t' => t'.held := by
  unfold handleNewConnection
  cases sys.accept with
  | none => exact .pure (le_refl _)
  | some n =>
      have haccept : Keeps t.held (emit (.acquire (.fd n)))
          fun _ => t.held + {Handle.fd n} :=
        (Keeps.frame (emit_acquire (.fd n)) t.held).weaken
          (Multiset.add_zero _).le fun _ => le_refl _
      refine haccept.bind fun _ => ?_
      cases sys.nonblock with
      | false => exact .stop
      | true =>
          have hheld : t.held + {Handle.fd n} = fdOf t.socket
              + ({Handle.fd n} + heldByConns t.conns) := by
            unfold ServerTransport.held
            ac_rfl
          rw [hheld]
          exact ((takeConnection_keeps n sys.alloc t.numConns t.conns).frame
            (fdOf t.socket)).bind fun _ => .pure (le_refl _)

/-- A connection that is read from is still held, or closed. -/
theorem handleReadable_keeps (server : Option (Server σ)) (r : Readable)
    (numConns : Int) (arg : σ) (c : ServerConn) :
    Keeps c.held (handleReadable server r numConns arg c)
      fun x => x.1.held := by
  unfold handleReadable
  have huse : Keeps c.held (useBuf c.buf) fun _ => c.held :=
    (useBuf_keeps c.buf).frame (fdOf c.socket)
  refine huse.bind fun _ => ?_
  by_cases hempty : (r.recv c).length = 0
  · rw [if_pos hempty]
    exact (closeConnection_keeps numConns c).bind fun _ => .pure (le_refl _)
  · rw [if_neg hempty]
    cases server with
    | none => exact .stop
    | some server =>
        dsimp only
        cases handleConnection server r.locals c.conn arg (r.recv c) with
        | abort => exact .stop
        | fault f => exact .stop
        | done conn arg' actions =>
            show Keeps c.held (if (!actions.isEmpty && !r.response) = true
              then stop else _) _
            split
            · exact .stop
            · exact .pure (le_refl _)

/-- The loop over the connections holds what these hold. By induction on them;
each turn leaves the handles of the others alone. -/
theorem handleConnections_keeps (server : Option (Server σ))
    (readable : Nat → Option Readable) (numConns : Int) (arg : σ)
    (conns : List ServerConn) :
    Keeps (heldByConns conns)
      (handleConnections server readable numConns arg conns)
      fun x => heldByConns x.1 := by
  induction conns generalizing numConns arg with
  | nil => exact .pure (le_refl _)
  | cons c conns ih =>
      unfold handleConnections
      have hconn : Keeps c.held (handleActive server readable numConns arg c)
          fun x => x.1.held := by
        unfold handleActive
        cases c.socket.bind readable with
        | none => exact .pure (le_refl _)
        | some r => exact handleReadable_keeps server r numConns arg c
      refine (hconn.frame (heldByConns conns)).bind fun x => ?_
      have hrest := (ih x.2.1 x.2.2).frame x.1.held
      rw [Multiset.add_comm] at hrest
      refine hrest.bind fun y => .pure ?_
      exact (Multiset.add_comm _ _).le

/-- So an update of the server holds what the server holds. -/
theorem serverUpdate_keeps (server : Option (Server σ))
    (t : ServerTransport σ) (sys : Select ReadySet) :
    Keeps t.held (serverUpdate server t sys) fun r => r.1.held := by
  unfold serverUpdate
  split
  · exact .pure (le_refl _)
  · cases sys with
    | failed => exact .stop
    | timeout => exact .pure (le_refl _)
    | ready set =>
        have hnew : Keeps t.held (handleListening t set.listening)
            fun t' => t'.held := by
          cases set.listening with
          | none => exact .pure (le_refl _)
          | some sys => exact handleNewConnection_keeps t sys
        refine hnew.bind fun t' => ?_
        exact ((handleConnections_keeps server set.readable t'.numConns t'.arg
          t'.conns).frame (fdOf t'.socket)).bind fun _ => .pure (le_refl _)

/-- Where a socket is opened, every call behind it succeeds. -/
theorem serverOpen_keeps {t : ServerTransport σ} {sys : ServerOpen}
    (h : t.socket = none → ¬ sys.FailsLate) :
    Keeps t.held (serverOpen t sys) fun r => r.1.held := by
  unfold serverOpen
  split
  · exact .pure (le_refl _)
  · next hsome =>
      have hnone : t.socket = none := by simpa using hsome
      have hlate := h hnone
      cases hinfo : sys.getaddrinfo with
      | false =>
          cases sys.strayFreed with
          | false => exact .stop
          | true => exact .pure (le_refl _)
      | true =>
          have hheld : t.held = heldByConns t.conns + 0 := by
            unfold ServerTransport.held
            rw [hnone, Multiset.add_comm]
            rfl
          rw [hheld]
          cases hsock : sys.socket with
          | none => exact .pure (Multiset.add_comm _ _).le
          | some n =>
              obtain ⟨hopt, hlisten⟩ : sys.setsockopt ∧
                  (sys.nonblock → sys.bind ∧ sys.listen) := by
                by_contra hfail
                exact hlate ⟨hinfo, by rw [hsock]; rfl, hfail⟩
              refine ((emit_acquire (.fd n)).frame
                (heldByConns t.conns)).bind fun _ => ?_
              rw [hopt]
              cases hnonblock : sys.nonblock with
              | false => exact .stop
              | true =>
                  obtain ⟨hbind, hlisten⟩ := hlisten hnonblock
                  rw [hbind, hlisten]
                  exact .pure (Multiset.add_comm _ _).le

/-- A clean call of a server keeps to what the server holds. -/
theorem serverStep_keeps (server : Option (Server σ)) (t : ServerTransport σ)
    (c : TransportCall ServerOpen (Select ReadySet))
    (h : CleanCall (·.socket) ServerOpen.FailsLate t c) :
    Keeps t.held (serverStep server t c) fun r => r.1.held := by
  cases c with
  | openCall sys => exact serverOpen_keeps h
  | closeCall =>
      have hnone : t.socket = none := h
      unfold serverStep serverClose
      rw [hnone]
      exact .pure (le_refl _)
  | updateCall sys => exact serverUpdate_keeps server t sys

/-- An open of the server that fails behind its socket returns an error and
keeps the socket. -/
theorem serverOpen_late {t : ServerTransport σ} {sys : ServerOpen}
    (ht : t.socket = none) (h : sys.FailsLate) :
    ∃ t' es, serverOpen t sys = .back (t', some .netInit) es ∧
      t'.socket ≠ none := by
  obtain ⟨hinfo, hsock, hfail⟩ := h
  obtain ⟨n, hsock⟩ := Option.isSome_iff_exists.mp hsock
  unfold serverOpen
  rw [ht, hinfo, hsock]
  cases hopt : sys.setsockopt with
  | false => exact ⟨_, _, rfl, nofun⟩
  | true =>
      have hnonblock : sys.nonblock = true := by
        by_contra hno
        exact hfail ⟨hopt, fun hyes => absurd hyes hno⟩
      rw [hnonblock]
      cases hbind : sys.bind with
      | false => exact ⟨_, _, rfl, nofun⟩
      | true =>
          cases hlisten : sys.listen with
          | false => exact ⟨_, _, rfl, nofun⟩
          | true => exact absurd ⟨hopt, fun _ => ⟨hbind, hlisten⟩⟩ hfail

/-- One that fails before returns with none. -/
theorem serverOpen_early {t t' : ServerTransport σ} {sys : ServerOpen}
    {ret : Option Err} {es : List (Entry Handle)} (ht : t.socket = none)
    (h : ¬ sys.FailsLate) (hback : serverOpen t sys = .back (t', ret) es)
    (hret : ret ≠ some .ok) : t'.socket = none := by
  unfold serverOpen at hback
  rw [ht] at hback
  cases hinfo : sys.getaddrinfo with
  | false =>
      rw [hinfo] at hback
      cases hstray : sys.strayFreed with
      | false => rw [hstray] at hback; cases hback
      | true => rw [hstray] at hback; cases hback; exact ht
  | true =>
      cases hsock : sys.socket with
      | none => rw [hinfo, hsock] at hback; cases hback; rfl
      | some n =>
          obtain ⟨hopt, hlisten⟩ : sys.setsockopt ∧
              (sys.nonblock → sys.bind ∧ sys.listen) := by
            by_contra hfail
            exact h ⟨hinfo, by rw [hsock]; rfl, hfail⟩
          rw [hinfo, hsock, hopt] at hback
          cases hnonblock : sys.nonblock with
          | false => rw [hnonblock] at hback; cases hback
          | true =>
              obtain ⟨hbind, hlisten⟩ := hlisten hnonblock
              rw [hnonblock, hbind, hlisten] at hback
              cases hback
              exact absurd rfl hret

/-- Closing the connections always returns. -/
theorem closeConnections_back (numConns : Int) (conns : List ServerConn) :
    ∃ conns' numConns' es,
      closeConnections numConns conns = .back (conns', numConns') es := by
  induction conns generalizing numConns with
  | nil => exact ⟨_, _, _, rfl⟩
  | cons c conns ih =>
      obtain ⟨c', n, es, hclose⟩ : ∃ c' n es,
          closeActive numConns c = .back (c', n) es := by
        unfold closeActive closeConnection
        cases c.socket with
        | none => exact ⟨_, _, _, rfl⟩
        | some k => exact ⟨_, _, _, rfl⟩
      obtain ⟨conns', n', es', hrest⟩ := ih n
      refine ⟨c' :: conns', n', es ++ (es' ++ []), ?_⟩
      unfold closeConnections
      rw [hclose]
      show behind es (closeConnections n conns >>= _) = _
      rw [hrest]
      rfl

/-- An open server is not opened again. -/
theorem serverOpen_opened {t : ServerTransport σ} (sys : ServerOpen)
    (ht : t.socket ≠ none) : serverOpen t sys = .back (t, some .ok) [] := by
  obtain ⟨n, hsock⟩ := Option.ne_none_iff_exists'.mp ht
  unfold serverOpen
  rw [hsock]
  rfl

/-- A close leaves the field as it is. -/
theorem serverClose_socket (t : ServerTransport σ) :
    ∃ t' ret es, serverClose t = .back (t', ret) es ∧
      t'.socket = t.socket := by
  unfold serverClose
  cases hsock : t.socket with
  | none => exact ⟨t, _, _, rfl, hsock⟩
  | some n =>
      obtain ⟨conns, numConns, es, hconns⟩ :=
        closeConnections_back t.numConns t.conns
      rw [hconns]
      exact ⟨_, _, _, rfl, rfl⟩

/-- A call of a server leaves it closed, if it has to, exactly if it is
clean. -/
theorem serverStep_leavesClosed (server : Option (Server σ))
    (t : ServerTransport σ)
    (c : TransportCall ServerOpen (Select ReadySet)) :
    CallMade.LeavesClosed (·.socket) ⟨t, c, serverStep server t c⟩ ↔
      CleanCall (·.socket) ServerOpen.FailsLate t c := by
  refine leavesClosed_iff (fun t sys ht hfails => ?_)
    (fun t sys t' ret es ht hfails hback hret => ?_)
    (fun t sys ht => ?_) (fun t => ?_) t c
  · exact serverOpen_late ht hfails
  · exact serverOpen_early ht hfails hback hret
  · exact serverOpen_opened sys ht
  · exact serverClose_socket t

-- =================================================================== results

/-- A closed server is not updated. -/
theorem serverUpdate_closed (server : Option (Server σ))
    {t : ServerTransport σ} (ht : t.socket = none) (sys : Select ReadySet) :
    serverUpdate server t sys = .back (t, none) [] := by
  unfold serverUpdate
  rw [ht]
  rfl

/-- A transport closes what it has to in every call of a run, and gives
nothing back twice, exactly if no call is a close of an open transport or
an open that fails late. -/
theorem transport_lifecycle_iff (services : List ServiceDesc)
    (server : Option (Server σ)) (len : Nat) (lastMethod : Option MethodRef)
    (arg : σ)
    (clientCalls : List (TransportCall ClientOpen (Select (Locals × Bytes))))
    (serverCalls : List (TransportCall ServerOpen (Select ReadySet))) :
    (Lifecycle (·.socket) (perform (clientStep services)
        (clientInit len lastMethod) clientCalls) ↔
      ∀ m ∈ perform (clientStep services) (clientInit len lastMethod)
        clientCalls, CleanCall (·.socket) ClientOpen.FailsLate m.before m.call) ∧
    (Lifecycle (·.socket) (perform (serverStep server) (serverInit len arg)
        serverCalls) ↔
      ∀ m ∈ perform (serverStep server) (serverInit len arg) serverCalls,
        CleanCall (·.socket) ServerOpen.FailsLate m.before m.call) := by
  constructor
  · exact lifecycle_iff (clientStep_leavesClosed services)
      (clientStep_keeps services) rfl clientCalls
  · exact lifecycle_iff (serverStep_leavesClosed server)
      (serverStep_keeps server) rfl serverCalls

/-- An open that succeeds, a client that is closed, and closed again. -/
theorem client_closes_twice :
    let run := perform (clientStep []) (clientInit 0 none)
      [.openCall ⟨some (7, 1024), true, true, some 3, true, true, true⟩,
        .closeCall, .closeCall]
    trail run = [.acquire (.buf 7), .acquire (.fd 3), .release (.buf 7),
        .release (.fd 3), .release (.buf 7), .release (.fd 3)] ∧
      ¬ Lifecycle (·.socket) run := by
  refine ⟨rfl, fun h => ?_⟩
  have hle := h.released_once (.fd 3)
  revert hle
  decide

end Lwpb
