/-
Connections do not interfere.

The connections of a socket server share its update loop, and the state of
the user's handler. Beyond that they are alone: whatever is opened,
accepted, closed and received in between, on whichever connections, what is
called for one connection since it was accepted is what `serve` calls, given
its own chunks and nothing else, and its buffer holds these chunks. The
handler sees one request after the other, each with the state that the one
before left, and the response to each goes to the connection it came from
(`server_serves_each_alone`).

# The log

What a call does is said beside it, by `callLog`: an entry for each
connection that is accepted, read from, or closed, in the order of the loop.
`session` reads the log of one connection. `ServedAlone` relates a
connection to its session, and a call keeps it, entry by entry.
-/
import Lwpb.Proofs.Rpc.Dispatch
import Lwpb.Proofs.Rpc.Select

namespace Lwpb

open Machine Traced

variable {σ : Type}

-- ================================================================== the log

/-- What happens to a connection: it is accepted, with a buffer of this
length; bytes are received from it; it is closed. -/
inductive Seen where
  | accepted (len : Nat)
  | heard (l : Locals) (chunk : Bytes) (actions : List Action)
  | closed

/-- What happened, by connection. -/
abbrev Log := List (Nat × Seen)

/-- What a connection that can be read from is given, and what is done
for it. -/
def heardFrom (server : Server σ) (r : Readable) (arg : σ) (c : ServerConn) :
    Seen :=
  if (r.recv c).length = 0 then .closed
  else .heard r.locals (r.recv c)
    (match handleConnection server r.locals c.conn arg (r.recv c) with
    | .done _ _ actions => actions
    | .abort | .fault _ => [])

/-- The turn of a connection. -/
def turn (server : Server σ) (readable : Nat → Option Readable) (arg : σ)
    (c : ServerConn) : List Seen :=
  match c.socket.bind readable with
  | none => []
  | some r => [heardFrom server r arg c]

/-- The loop over the active connections, the first of which is the `i`-th
one. -/
def loopLog (server : Server σ) (readable : Nat → Option Readable) :
    (i : Nat) → Int → σ → List ServerConn → Log
  | _, _, _, [] => []
  | i, numConns, arg, c :: conns =>
      (turn server readable arg c).map (i, ·) ++
        match handleActive (some server) readable numConns arg c with
        | .gone _ => []
        | .back (_, numConns, arg) _ =>
            loopLog server readable (i + 1) numConns arg conns

/-- A connection that is accepted. -/
def takenLog (n : Nat) (alloc : AllocBuf) : (i : Nat) → List ServerConn → Log
  | _, [] => []
  | i, c :: conns =>
      if c.socket.isNone then
        [(i, .accepted (withBuf alloc { c with socket := some n }).len)]
      else takenLog n alloc (i + 1) conns

/-- The listen socket's turn. -/
def listenLog (conns : List ServerConn) : Option NewConnection → Log
  | some ⟨some n, _, alloc⟩ => takenLog n alloc 0 conns
  | _ => []

/-- The connections that are closed with the server. -/
def closeLog : (i : Nat) → List ServerConn → Log
  | _, [] => []
  | i, c :: conns =>
      (if c.socket.isSome then [(i, .closed)] else [])
        ++ closeLog (i + 1) conns

/-- A call of an open server transport. -/
def openLog (server : Server σ) (t : ServerTransport σ) :
    TransportCall ServerOpen (Select ReadySet) → Log
  | .closeCall => closeLog 0 t.conns
  | .updateCall (.ready set) =>
      match handleListening t set.listening with
      | .gone _ => []
      | .back t' _ => listenLog t.conns set.listening ++
          loopLog server set.readable 0 t'.numConns t'.arg t'.conns
  | _ => []

/-- A call. -/
def callLog (server : Server σ) (t : ServerTransport σ)
    (c : TransportCall ServerOpen (Select ReadySet)) : Log :=
  if t.socket.isNone then [] else openLog server t c

/-- The calls of a run. -/
abbrev ServerRun (σ : Type) :=
  List (CallMade (ServerTransport σ) ServerOpen (Select ReadySet))

/-- The calls that come back, and the state behind them. -/
def runLog (server : Server σ) (t : ServerTransport σ) :
    ServerRun σ → Log × ServerTransport σ
  | [] => ([], t)
  | m :: run =>
      match m.outcome with
      | .gone _ => ([], t)
      | .back (t', _) _ =>
          let (log, last) := runLog server t' run
          (callLog server m.before m.call ++ log, last)

-- ================================================================= sessions

/-- A connection since it was accepted: the length of its buffer, what was
received, and what was called for it. -/
structure Session where
  len : Nat
  chunks : List (Locals × Bytes)
  calls : List (MethodRef × Bytes)

/-- One more entry. -/
def Session.see : Option Session → Seen → Option Session
  | _, .accepted len => some ⟨len, [], []⟩
  | s, .heard l chunk actions => s.map fun s =>
      { s with
        chunks := s.chunks ++ [(l, chunk)]
        calls := s.calls ++ actions.filterMap Action.called }
  | _, .closed => none

/-- The entries of one connection. -/
def entriesOf (i : Nat) (log : Log) : List Seen :=
  log.filterMap fun e => if e.1 = i then some e.2 else none

/-- The session of a connection, if it is open. -/
def session (i : Nat) (log : Log) : Option Session :=
  (entriesOf i log).foldl Session.see none

/-- The handler is called for one entry after the other, with the state that
is left, and what it makes of a request is sent in the same turn. -/
inductive Sequential (server : Server σ) : σ → Log → σ → Prop where
  | nil {arg : σ} : Sequential server arg [] arg
  | accepted {arg arg' : σ} {i len : Nat} {log : Log} :
      Sequential server arg log arg' →
      Sequential server arg ((i, .accepted len) :: log) arg'
  | closed {arg arg' : σ} {i : Nat} {log : Log} :
      Sequential server arg log arg' →
      Sequential server arg ((i, .closed) :: log) arg'
  | silent {arg arg' : σ} {i : Nat} {l : Locals} {chunk : Bytes} {log : Log} :
      Sequential server arg log arg' →
      Sequential server arg ((i, .heard l chunk []) :: log) arg'
  | answer {arg arg₁ arg' : σ} {i : Nat} {l : Locals} {chunk req res : Bytes}
      {m : MethodRef} {bytes : Bytes} {log : Log} :
      server.callHandler arg m (server.method m).reqDesc req
        (server.method m).resDesc = (arg₁, res) →
      sendResponse l res = some bytes →
      Sequential server arg₁ log arg' →
      Sequential server arg
        ((i, .heard l chunk [.call m (server.method m).reqDesc req
          (server.method m).resDesc, .response bytes]) :: log) arg'

/-- What was called for a connection is what `serve` calls by itself, from
any state of the handler, and its buffer holds what was received. -/
structure PrivateSession (server : Server σ) (c : ServerConn) (s : Session) :
    Prop where
  isOpen : c.socket ≠ none
  received : c.received = s.chunks.flatMap Prod.snd
  calls : ∀ a, (serve server ⟨[], s.len, true⟩ a s.chunks).1.filterMap
    Action.called = s.calls
  returned : ∀ a, (serve server ⟨[], s.len, true⟩ a s.chunks).2 = true

/-- A connection is closed, or open with such a session. -/
def Private (server : Server σ) (c : ServerConn) : Option Session → Prop
  | none => c.socket = none
  | some s => PrivateSession server c s

-- ============================================================== one receive

variable {server : Server σ}

/-- What a receive comes to, if it comes back. -/
theorem handleConnection_cases {l : Locals} {conn conn' : Conn}
    {arg arg' : σ} {chunk : Bytes} {actions : List Action}
    (hne : chunk.length ≠ 0)
    (h : handleConnection server l conn arg chunk
      = .done conn' arg' actions) :
    conn' = { conn with received := conn.received ++ chunk } ∧
      ((parseRequest server.services (conn.received ++ chunk) l.wireValue
          = .err ∧ arg' = arg ∧ actions = []) ∨
        ∃ info m req res bytes,
          parseRequest server.services (conn.received ++ chunk) l.wireValue
            = .ok info ∧ info.methodDesc = some m ∧
          req = ((conn.received ++ chunk).drop info.headerLen).take
            info.msgLen ∧
          server.callHandler arg m (server.method m).reqDesc req
            (server.method m).resDesc = (arg', res) ∧
          sendResponse l res = some bytes ∧
          actions = [.call m (server.method m).reqDesc req
            (server.method m).resDesc, .response bytes]) := by
  unfold handleConnection at h
  rw [if_neg hne] at h
  simp only at h
  cases hparse : parseRequest server.services (conn.received ++ chunk)
      l.wireValue with
  | abort =>
      rw [hparse] at h
      cases h
  | fault f =>
      rw [hparse] at h
      cases h
  | err =>
      rw [hparse] at h
      cases h
      exact ⟨rfl, .inl ⟨rfl, rfl, rfl⟩⟩
  | ok info =>
      rw [hparse] at h
      simp only at h
      cases hm : info.methodDesc with
      | none =>
          rw [hm] at h
          cases h
      | some m =>
          rw [hm] at h
          simp only at h
          cases hsend : sendResponse l (server.callHandler arg m
              (server.method m).reqDesc
              (((conn.received ++ chunk).drop info.headerLen).take
                info.msgLen) (server.method m).resDesc).2 with
          | none =>
              rw [hsend] at h
              cases h
          | some bytes =>
              rw [hsend] at h
              cases h
              exact ⟨rfl, .inr ⟨info, m, _, _, bytes, rfl, hm, rfl, rfl,
                hsend, rfl⟩⟩

/-- What is called for a receive is no matter of the handler's state. -/
theorem handleConnection_arg {l : Locals} {conn conn' : Conn} {arg arg' : σ}
    {chunk : Bytes} {actions : List Action} (hne : chunk.length ≠ 0)
    (h : handleConnection server l conn arg chunk = .done conn' arg' actions)
    (a : σ) :
    ∃ a' actions', handleConnection server l conn a chunk
        = .done conn' a' actions' ∧
      actions'.filterMap Action.called = actions.filterMap Action.called := by
  obtain ⟨rfl, hcases⟩ := handleConnection_cases hne h
  rcases hcases with ⟨hparse, -, rfl⟩ |
    ⟨info, m, req, res, bytes, hparse, hm, hreq, -, -, rfl⟩
  · refine ⟨a, [], ?_, rfl⟩
    unfold handleConnection
    rw [if_neg hne]
    simp only [hparse]
  · obtain ⟨bytes', hbytes'⟩ := sendResponse_total l (server.callHandler a m
      (server.method m).reqDesc req (server.method m).resDesc).2
    have hdone : handleConnection server l conn a chunk
        = .done { conn with received := conn.received ++ chunk }
          (server.callHandler a m (server.method m).reqDesc req
            (server.method m).resDesc).1
          [.call m (server.method m).reqDesc req (server.method m).resDesc,
            .response bytes'] := by
      unfold handleConnection
      rw [if_neg hne]
      simp only [hparse, hm, ← hreq, hbytes']
    exact ⟨_, _, hdone, rfl⟩

-- ==================================================== one connection alone

/-- A connection as `serve` alone leaves it: what comes then makes no
difference to what was called. -/
structure ServesUpTo (server : Server σ) (s : Session) (conn : Conn) :
    Prop where
  len : conn.len = s.len
  connected : conn.connected = true
  received : conn.received = s.chunks.flatMap Prod.snd
  runs : ∀ a rest, ∃ a' actions,
    actions.filterMap Action.called = s.calls ∧
    serve server ⟨[], s.len, true⟩ a (s.chunks ++ rest)
      = (actions ++ (serve server conn a' rest).1,
        (serve server conn a' rest).2)

/-- A session that has heard nothing has an empty buffer. -/
theorem ServesUpTo.fresh (server : Server σ) (len : Nat) :
    ServesUpTo server ⟨len, [], []⟩ ⟨[], len, true⟩ :=
  ⟨rfl, rfl, rfl, fun a _ => ⟨a, [], rfl, rfl⟩⟩

/-- One more receive. -/
theorem ServesUpTo.heard {s : Session} {conn conn' : Conn}
    (h : ServesUpTo server s conn) {l : Locals} {arg arg' : σ}
    {chunk : Bytes} {actions : List Action} (hne : chunk.length ≠ 0)
    (hroom : chunk.length ≤ conn.len - conn.received.length)
    (hdone : handleConnection server l conn arg chunk
      = .done conn' arg' actions) :
    ServesUpTo server
      { s with
        chunks := s.chunks ++ [(l, chunk)]
        calls := s.calls ++ actions.filterMap Action.called } conn' := by
  obtain ⟨rfl, -⟩ := handleConnection_cases hne hdone
  refine ⟨h.len, h.connected, ?_, fun a rest => ?_⟩
  · simp [h.received]
  · obtain ⟨a₁, acts, hcalls, hserve⟩ := h.runs a ((l, chunk) :: rest)
    obtain ⟨a₂, acts', hdone', hcalls'⟩ := handleConnection_arg hne hdone a₁
    have hcons : serve server conn a₁ ((l, chunk) :: rest) = _ :=
      serve_cons h.connected (by rwa [List.take_of_length_le hroom])
    refine ⟨a₂, acts ++ acts', ?_, ?_⟩
    · rw [List.filterMap_append, hcalls, hcalls']
    · rw [List.append_assoc, List.singleton_append, hserve, hcons,
        List.append_assoc]

/-- The connection is as its session alone has left it. -/
def ServedAlone (server : Server σ) (c : ServerConn) :
    Option Session → Prop
  | none => c.socket = none
  | some s => c.socket ≠ none ∧ ServesUpTo server s c.conn

/-- What a connection has been served up to is what it would have got alone.
-/
theorem ServesUpTo.privateSession {c : ServerConn} {s : Session}
    (h : ServesUpTo server s c.conn) (hopen : c.socket ≠ none) :
    PrivateSession server c s := by
  have hserve : ∀ a, ∃ actions, actions.filterMap Action.called = s.calls ∧
      serve server ⟨[], s.len, true⟩ a s.chunks = (actions, true) := by
    intro a
    obtain ⟨a', actions, hcalls, hruns⟩ := h.runs a []
    rw [List.append_nil] at hruns
    refine ⟨actions, hcalls, hruns.trans ?_⟩
    simp only [serve, List.append_nil]
  refine ⟨hopen, h.received, fun a => ?_, fun a => ?_⟩
  · obtain ⟨actions, hcalls, hruns⟩ := hserve a
    rw [hruns]
    exact hcalls
  · obtain ⟨actions, -, hruns⟩ := hserve a
    rw [hruns]

/-- The same where there may be no session at all. -/
theorem ServedAlone.toPrivate {c : ServerConn} {s : Option Session}
    (h : ServedAlone server c s) : Private server c s := by
  cases s with
  | none => exact h
  | some s => exact h.2.privateSession h.1

-- ==================================================================== turns

/-- What `recv` returns has room. -/
theorem Readable.recv_le (r : Readable) (c : ServerConn) :
    (r.recv c).length ≤ c.len - c.received.length := by
  unfold recv
  by_cases hbuf : c.buf.isNone
  · rw [if_pos hbuf]
    exact Nat.zero_le _
  · rw [if_neg hbuf, List.length_take]
    exact Nat.min_le_left _ _

/-- A turn is logged: what it calls is in order, and the connection is
served alone if it was. -/
structure Logged (server : Server σ) (i : Nat) (arg : σ) (c : ServerConn)
    (seen : List Seen) (arg' : σ) (c' : ServerConn) : Prop where
  sequential : ∀ log last, Sequential server arg' log last →
    Sequential server arg (seen.map (i, ·) ++ log) last
  alone : ∀ s, ServedAlone server c s →
    ServedAlone server c' (seen.foldl Session.see s)

/-- A connection that is ready: what is received and called for it goes into
the log under its index, and the argument goes on from there. -/
theorem handleReadable_logged (i : Nat) (r : Readable) (numConns : Int)
    (arg : σ) (c : ServerConn) (hopen : c.socket ≠ none) :
    (handleReadable (some server) r numConns arg c).Gives fun x =>
      Logged server i arg c [heardFrom server r arg c] x.2.2 x.1 := by
  unfold handleReadable heardFrom
  refine .then ?_
  by_cases hlen : (r.recv c).length = 0
  · rw [if_pos hlen, if_pos hlen]
    refine .bind (P := fun x : ServerConn × Int => x.1.socket = none)
      (.then (.pure rfl)) fun x hx => .pure ?_
    exact ⟨fun log last h => .closed h, fun s _ => hx⟩
  · rw [if_neg hlen, if_neg hlen]
    simp only
    cases hdone : handleConnection server r.locals c.conn arg (r.recv c) with
    | abort => exact .stop
    | fault f => exact .stop
    | done conn arg' actions =>
        simp only
        refine .ite .stop (.pure ⟨fun log last h => ?_, fun s hs => ?_⟩)
        · obtain ⟨-, hcases⟩ := handleConnection_cases hlen hdone
          rcases hcases with ⟨-, rfl, rfl⟩ |
            ⟨info, m, req, res, bytes, -, -, -, hcall, hsend, rfl⟩
          · exact .silent h
          · exact .answer hcall hsend h
        · cases s with
          | none => exact absurd hs hopen
          | some s =>
              have hheard := hs.2.heard hlen (r.recv_le c) hdone
              obtain ⟨rfl, -⟩ := handleConnection_cases hlen hdone
              exact ⟨hopen, hheard⟩

/-- A turn of the loop over the connections, which does nothing for those that
are not ready. -/
theorem handleActive_logged (i : Nat) (readable : Nat → Option Readable)
    (numConns : Int) (arg : σ) (c : ServerConn) :
    (handleActive (some server) readable numConns arg c).Gives fun x =>
      Logged server i arg c (turn server readable arg c) x.2.2 x.1 := by
  unfold handleActive turn
  cases hr : c.socket.bind readable with
  | none => exact .pure ⟨fun _ _ h => h, fun _ hs => hs⟩
  | some r =>
      refine handleReadable_logged i r numConns arg c fun hclosed => ?_
      rw [hclosed] at hr
      cases hr

-- =============================================================== log books

/-- The sessions behind a log. -/
def sessionsAfter (ss : Nat → Option Session) (log : Log) (k : Nat) :
    Option Session :=
  (entriesOf k log).foldl Session.see (ss k)

/-- A log that goes on changes the sessions further. -/
theorem sessionsAfter_append (ss : Nat → Option Session) (log log' : Log) :
    sessionsAfter ss (log ++ log')
      = sessionsAfter (sessionsAfter ss log) log' := by
  funext k
  unfold sessionsAfter entriesOf
  rw [List.filterMap_append, List.foldl_append]

/-- The entries of other connections are no matter. -/
theorem sessionsAfter_other {ss : Nat → Option Session} {log : Log} {k : Nat}
    (h : ∀ e ∈ log, e.1 ≠ k) : sessionsAfter ss log k = ss k := by
  have hnone : entriesOf k log = [] := by
    unfold entriesOf
    rw [List.filterMap_eq_nil_iff]
    exact fun e he => if_neg (h e he)
  unfold sessionsAfter
  rw [hnone]
  rfl

/-- The entries of one connection change its own session. -/
theorem sessionsAfter_turn (ss : Nat → Option Session) (i : Nat)
    (seen : List Seen) :
    sessionsAfter ss (seen.map (i, ·)) i = seen.foldl Session.see (ss i) := by
  have hall : entriesOf i (seen.map (i, ·)) = seen := by
    unfold entriesOf
    rw [List.filterMap_map]
    have hsome : ((fun e : Nat × Seen => if e.1 = i then some e.2 else none)
        ∘ fun x => (i, x)) = some := by
      funext x
      exact if_pos rfl
    rw [hsome, List.filterMap_some]
  unfold sessionsAfter
  rw [hall]

/-- The connections from the `i`-th on are as these sessions alone have left
them. -/
def AllAlone (server : Server σ) (ss : Nat → Option Session) :
    (i : Nat) → List ServerConn → Prop
  | _, [] => True
  | i, c :: conns =>
      ServedAlone server c (ss i) ∧ AllAlone server ss (i + 1) conns

/-- Whether connections are served alone depends on their own sessions only.
-/
theorem AllAlone.congr {ss ss' : Nat → Option Session}
    {conns : List ServerConn} {i : Nat} (h : AllAlone server ss i conns)
    (heq : ∀ k, i ≤ k → ss' k = ss k) : AllAlone server ss' i conns := by
  induction conns generalizing i with
  | nil => trivial
  | cons c conns ih =>
      obtain ⟨hc, hconns⟩ := h
      refine ⟨?_, ih hconns fun k hk => heq k (by omega)⟩
      rwa [heq i (le_refl i)]

/-- Each of them is. -/
theorem AllAlone.get {ss : Nat → Option Session} {conns : List ServerConn}
    {i : Nat} (h : AllAlone server ss i conns) {j : Nat} {c : ServerConn}
    (hc : conns[j]? = some c) : ServedAlone server c (ss (i + j)) := by
  induction conns generalizing i j with
  | nil => cases hc
  | cons c' conns ih =>
      obtain ⟨hhead, hconns⟩ := h
      cases j with
      | zero =>
          rw [List.getElem?_cons_zero] at hc
          rwa [← Option.some.inj hc]
      | succ j =>
          rw [List.getElem?_cons_succ] at hc
          have htail := ih hconns hc
          rwa [show i + 1 + j = i + (j + 1) by omega] at htail

-- ==================================================================== loops

/-- A turn logs under one index. -/
theorem turn_index {seen : List Seen} {i : Nat} :
    ∀ e ∈ seen.map (i, ·), e.1 = i := by
  intro e he
  obtain ⟨x, -, rfl⟩ := List.mem_map.mp he
  rfl

/-- The loop over the connections from an index on logs nothing in front of
it. -/
theorem loopLog_index {readable : Nat → Option Readable} {i : Nat}
    {numConns : Int} {arg : σ} {conns : List ServerConn} :
    ∀ e ∈ loopLog server readable i numConns arg conns, i ≤ e.1 := by
  induction conns generalizing i numConns arg with
  | nil => nofun
  | cons c conns ih =>
      intro e he
      rcases List.mem_append.mp he with hturn | hrest
      · exact (turn_index e hturn).ge
      · cases hactive : handleActive (some server) readable numConns arg c with
        | gone es =>
            rw [hactive] at hrest
            cases hrest
        | back x es =>
            rw [hactive] at hrest
            have hlt := ih e hrest
            omega

/-- The loop over the connections. Its log is sequential, whatever follows,
and every connection is served alone behind it if it was before. By induction
on the connections that are left: a turn changes its own session, and the rest
of the loop only those behind. -/
theorem handleConnections_logged (readable : Nat → Option Readable) (i : Nat)
    (numConns : Int) (arg : σ) (conns : List ServerConn) :
    (handleConnections (some server) readable numConns arg conns).Gives
      fun x => (∀ log last, Sequential server x.2.2 log last →
          Sequential server arg
            (loopLog server readable i numConns arg conns ++ log) last) ∧
        ∀ ss, AllAlone server ss i conns → AllAlone server
          (sessionsAfter ss (loopLog server readable i numConns arg conns)) i
          x.1 := by
  induction conns generalizing i numConns arg with
  | nil => exact .pure ⟨fun _ _ h => h, fun _ _ => trivial⟩
  | cons c conns ih =>
      unfold handleConnections
      have hactive : (handleActive (some server) readable numConns arg c).Gives
          fun x => (∃ es, handleActive (some server) readable numConns arg c
              = .back x es) ∧
            Logged server i arg c (turn server readable arg c) x.2.2 x.1 :=
        fun x es heq =>
          ⟨⟨es, heq⟩, handleActive_logged i readable numConns arg c x es heq⟩
      refine hactive.bind fun x hx => ?_
      obtain ⟨c', numConns', arg'⟩ := x
      obtain ⟨⟨es, hback⟩, hlogged⟩ := hx
      have hlog : loopLog server readable i numConns arg (c :: conns)
          = (turn server readable arg c).map (i, ·)
            ++ loopLog server readable (i + 1) numConns' arg' conns := by
        rw [loopLog, hback]
      refine (ih (i + 1) numConns' arg').bind fun x hx => .pure ?_
      obtain ⟨conns', numConns'', arg''⟩ := x
      obtain ⟨hseq, halone⟩ := hx
      rw [hlog]
      refine ⟨fun log last hlast => ?_, fun ss h => ?_⟩
      · rw [List.append_assoc]
        exact hlogged.sequential _ _ (hseq log last hlast)
      · obtain ⟨hc, hconns⟩ := h
        rw [sessionsAfter_append]
        refine ⟨?_, halone _ (hconns.congr fun k hk => ?_)⟩
        · rw [sessionsAfter_other fun e he => by
              have hi := loopLog_index e he
              omega,
            sessionsAfter_turn]
          exact hlogged.alone _ hc
        · -- the turn leaves the sessions of the others
          refine sessionsAfter_other fun e he => ?_
          have hi := turn_index e he
          omega

/-- The entry says that a connection was accepted or closed. -/
def Seen.isQuiet : Seen → Bool
  | .heard _ _ _ => false
  | _ => true

/-- Entries without a call do not disturb the order of the calls. -/
theorem Sequential.quiet {arg last : σ} {log log' : Log}
    (hquiet : ∀ e ∈ log, e.2.isQuiet = true)
    (h : Sequential server arg log' last) :
    Sequential server arg (log ++ log') last := by
  induction log with
  | nil => exact h
  | cons e log ih =>
      obtain ⟨he, hlog⟩ := List.forall_mem_cons.mp hquiet
      obtain ⟨i, seen⟩ := e
      cases seen with
      | accepted len => exact .accepted (ih hlog)
      | closed => exact .closed (ih hlog)
      | heard l chunk actions => cases he

/-- Taking a connection in logs quiet entries only. -/
theorem takenLog_entries {n : Nat} {alloc : AllocBuf} {i : Nat}
    {conns : List ServerConn} :
    ∀ e ∈ takenLog n alloc i conns, i ≤ e.1 ∧ e.2.isQuiet = true := by
  induction conns generalizing i with
  | nil => nofun
  | cons c conns ih =>
      intro e he
      unfold takenLog at he
      by_cases hfree : c.socket.isNone
      · rw [if_pos hfree] at he
        rw [List.mem_singleton.mp he]
        exact ⟨le_refl i, rfl⟩
      · rw [if_neg hfree] at he
        obtain ⟨hi, hq⟩ := ih e he
        exact ⟨by omega, hq⟩

/-- A buffer for a connection leaves its socket alone. -/
theorem withBuf_socket (alloc : AllocBuf) (c : ServerConn) :
    (withBuf alloc c).socket = c.socket := by
  unfold withBuf
  split <;> rfl

/-- A connection that is accepted starts its session. -/
theorem taken_alone (n : Nat) (alloc : AllocBuf) {i : Nat}
    {conns : List ServerConn} {ss : Nat → Option Session}
    (h : AllAlone server ss i conns) :
    AllAlone server (sessionsAfter ss (takenLog n alloc i conns)) i
      (taken n alloc conns) := by
  induction conns generalizing i with
  | nil => trivial
  | cons c conns ih =>
      obtain ⟨hc, hconns⟩ := h
      unfold takenLog taken
      by_cases hfree : c.socket.isNone
      · rw [if_pos hfree, if_pos hfree]
        have hsocket := withBuf_socket alloc { c with socket := some n }
        refine ⟨?_, hconns.congr fun k hk => sessionsAfter_other ?_⟩
        · rw [show sessionsAfter ss [(i, .accepted
              (withBuf alloc { c with socket := some n }).len)] i
            = some ⟨(withBuf alloc { c with socket := some n }).len, [], []⟩
            from sessionsAfter_turn ss i [.accepted _]]
          refine ⟨by rw [hsocket]; exact Option.some_ne_none n, ?_⟩
          have hfresh := ServesUpTo.fresh server
            (withBuf alloc { c with socket := some n }).len
          unfold ServerConn.conn
          rwa [hsocket]
        · intro e he
          rw [List.mem_singleton.mp he]
          show i ≠ k
          omega
      · rw [if_neg hfree, if_neg hfree]
        refine ⟨?_, ih hconns⟩
        rwa [sessionsAfter_other fun e he => by
          have hi := (takenLog_entries e he).1
          omega]

/-- The listening socket: a connection that is taken in starts a session of
its own, and the others are left alone. -/
theorem handleListening_logged (t : ServerTransport σ)
    (listening : Option NewConnection) :
    (handleListening t listening).Gives fun t' => t'.arg = t.arg ∧
      ∀ ss, AllAlone server ss 0 t.conns → AllAlone server
        (sessionsAfter ss (listenLog t.conns listening)) 0 t'.conns := by
  unfold handleListening
  cases listening with
  | none => exact .pure ⟨rfl, fun _ h => h⟩
  | some sys =>
      obtain ⟨accept, nonblock, alloc⟩ := sys
      unfold handleNewConnection
      cases accept with
      | none => exact .pure ⟨rfl, fun _ h => h⟩
      | some n =>
          refine .then ?_
          cases nonblock with
          | false => exact .stop
          | true =>
              refine (takeConnection_gives n alloc t.numConns t.conns).bind
                fun r hr => .pure ⟨rfl, fun ss h => ?_⟩
              simp only [hr]
              exact taken_alone n alloc h

/-- Nothing is called when a connection is taken in. -/
theorem listenLog_quiet {conns : List ServerConn}
    {listening : Option NewConnection} :
    ∀ e ∈ listenLog conns listening, e.2.isQuiet = true := by
  unfold listenLog
  split
  · exact fun e he => (takenLog_entries e he).2
  · nofun

/-- Nothing is called when connections are closed. -/
theorem closeLog_entries {i : Nat} {conns : List ServerConn} :
    ∀ e ∈ closeLog i conns, i ≤ e.1 ∧ e.2.isQuiet = true := by
  induction conns generalizing i with
  | nil => nofun
  | cons c conns ih =>
      intro e he
      rcases List.mem_append.mp he with hhead | hrest
      · by_cases hsocket : c.socket.isSome
        · rw [if_pos hsocket] at hhead
          rw [List.mem_singleton.mp hhead]
          exact ⟨le_refl i, rfl⟩
        · rw [if_neg hsocket] at hhead
          cases hhead
      · obtain ⟨hi, hq⟩ := ih e hrest
        exact ⟨by omega, hq⟩

/-- A connection that is closed ends its session. -/
theorem closeConnections_logged (numConns : Int) (i : Nat)
    (conns : List ServerConn) :
    (closeConnections numConns conns).Gives fun x =>
      ∀ ss, AllAlone server ss i conns →
        AllAlone server (sessionsAfter ss (closeLog i conns)) i x.1 := by
  induction conns generalizing i numConns with
  | nil => exact .pure fun _ _ => trivial
  | cons c conns ih =>
      unfold closeConnections
      have hhead : (closeActive numConns c).Gives fun x =>
          ∀ ss, ServedAlone server c (ss i) → ServedAlone server x.1
            (sessionsAfter ss
              (if c.socket.isSome then [(i, .closed)] else []) i) := by
        unfold closeActive
        by_cases hsocket : c.socket.isSome
        · rw [if_pos hsocket, if_pos hsocket]
          refine .then (.pure fun ss _ => ?_)
          rw [show sessionsAfter ss [(i, .closed)] i = none from
            sessionsAfter_turn ss i [.closed]]
          rfl
        · rw [if_neg hsocket, if_neg hsocket]
          exact .pure fun ss hc => hc
      refine hhead.bind fun x hx => ?_
      refine (ih x.2 (i + 1)).bind fun y hy => .pure fun ss h => ?_
      obtain ⟨hc, hconns⟩ := h
      rw [closeLog, sessionsAfter_append]
      refine ⟨?_, hy _ (hconns.congr fun k hk => sessionsAfter_other ?_)⟩
      · rw [sessionsAfter_other fun e he => by
          have hi := (closeLog_entries e he).1
          omega]
        exact hx ss hc
      · intro e he
        by_cases hsocket : c.socket.isSome
        · rw [if_pos hsocket] at he
          rw [List.mem_singleton.mp he]
          show i ≠ k
          omega
        · rw [if_neg hsocket] at he
          cases he

-- =================================================================== calls

/-- A call is logged: what it calls is in order, and every connection is
served alone if it was. -/
structure CallLogged (server : Server σ) (t : ServerTransport σ) (log : Log)
    (t' : ServerTransport σ) : Prop where
  sequential : ∀ rest last, Sequential server t'.arg rest last →
    Sequential server t.arg (log ++ rest) last
  alone : ∀ ss, AllAlone server ss 0 t.conns →
    AllAlone server (sessionsAfter ss log) 0 t'.conns

/-- A call that changes neither the argument nor the connections logs nothing.
-/
theorem CallLogged.idle {t t' : ServerTransport σ} (harg : t'.arg = t.arg)
    (hconns : t'.conns = t.conns) : CallLogged server t [] t' := by
  refine ⟨fun rest last h => ?_, fun ss h => ?_⟩
  · rwa [← harg]
  · rw [hconns]
    exact h

/-- Opening the server does not touch the argument of its handler. -/
theorem serverOpen_arg (t : ServerTransport σ) (sys : ServerOpen) :
    (serverOpen t sys).Gives (·.1.arg = t.arg) := by
  unfold serverOpen closeFd
  refine .ite (.pure rfl) (.ite (.ite (.pure rfl) .stop) ?_)
  cases sys.socket with
  | none => exact .pure rfl
  | some n =>
      exact .then (.ite (.pure rfl) (.ite .stop (.ite (.pure rfl)
        (.ite (.then (.pure rfl)) (.pure rfl)))))

/-- An update of an open server is logged: first the connections, then the
listening socket. -/
theorem serverUpdate_logged (t : ServerTransport σ) (set : ReadySet)
    (hopen : ¬ t.socket.isNone = true) :
    (serverUpdate (some server) t (.ready set)).Gives fun r =>
      CallLogged server t (openLog server t (.updateCall (.ready set)))
        r.1 := by
  unfold serverUpdate openLog
  rw [if_neg hopen]
  have hlisten : (handleListening t set.listening).Gives fun t' =>
      (∃ es, handleListening t set.listening = .back t' es) ∧
        t'.arg = t.arg ∧ ∀ ss, AllAlone server ss 0 t.conns → AllAlone server
          (sessionsAfter ss (listenLog t.conns set.listening)) 0 t'.conns :=
    fun t' es heq => ⟨⟨es, heq⟩, handleListening_logged t _ t' es heq⟩
  refine hlisten.bind fun t' ht' => ?_
  obtain ⟨⟨es, hback⟩, harg, halone⟩ := ht'
  simp only [hback]
  refine (handleConnections_logged set.readable 0 t'.numConns t'.arg
    t'.conns).bind fun x hx => .pure ⟨fun rest last h => ?_, fun ss h => ?_⟩
  · rw [List.append_assoc, ← harg]
    exact .quiet listenLog_quiet (hx.1 rest last h)
  · rw [sessionsAfter_append]
    exact hx.2 _ (halone ss h)

/-- A close of an open server ends all sessions. -/
theorem serverClose_logged (t : ServerTransport σ)
    (hopen : ¬ t.socket.isNone = true) :
    (serverClose t).Gives fun r =>
      CallLogged server t (openLog server t .closeCall) r.1 := by
  unfold serverClose openLog
  rw [if_neg hopen]
  refine (closeConnections_logged t.numConns 0 t.conns).bind fun x hx =>
    .then (.pure ⟨fun rest last h => ?_, hx⟩)
  exact .quiet (fun e he => (closeLog_entries e he).2) h

/-- Every call of the transport is logged, whichever it is. -/
theorem serverStep_logged (t : ServerTransport σ)
    (c : TransportCall ServerOpen (Select ReadySet)) :
    (serverStep (some server) t c).Gives fun r =>
      CallLogged server t (callLog server t c) r.1 := by
  unfold callLog
  by_cases hclosed : t.socket.isNone = true
  · rw [if_pos hclosed]
    cases c with
    | openCall sys =>
        exact fun r es heq => .idle (serverOpen_arg t sys r es heq)
          (serverOpen_gives t sys r es heq)
    | closeCall =>
        unfold serverStep serverClose
        rw [if_pos hclosed]
        exact .pure (.idle rfl rfl)
    | updateCall sys =>
        show (serverUpdate (some server) t sys).Gives _
        unfold serverUpdate
        rw [if_pos hclosed]
        exact .pure (.idle rfl rfl)
  · rw [if_neg hclosed]
    cases c with
    | openCall sys =>
        exact fun r es heq => .idle (serverOpen_arg t sys r es heq)
          (serverOpen_gives t sys r es heq)
    | closeCall => exact serverClose_logged t hclosed
    | updateCall sys =>
        cases sys with
        | ready set => exact serverUpdate_logged t set hclosed
        | failed =>
            show (serverUpdate (some server) t .failed).Gives _
            unfold serverUpdate
            rw [if_neg hclosed]
            exact .stop
        | timeout =>
            show (serverUpdate (some server) t .timeout).Gives _
            unfold serverUpdate
            rw [if_neg hclosed]
            exact .pure (.idle rfl rfl)

-- ==================================================================== runs

/-- So is a whole run of calls, by induction on them. -/
theorem perform_logged (cs : List (TransportCall ServerOpen
      (Select ReadySet))) (t : ServerTransport σ) :
    CallLogged server t
      (runLog server t (perform (serverStep (some server)) t cs)).1
      (runLog server t (perform (serverStep (some server)) t cs)).2 := by
  induction cs generalizing t with
  | nil => exact .idle rfl rfl
  | cons c cs ih =>
      rw [perform]
      cases hstep : serverStep (some server) t c with
      | gone es =>
          simp only [runLog]
          exact .idle rfl rfl
      | back r es =>
          obtain ⟨t', ret⟩ := r
          have hcall := serverStep_logged t c _ _ hstep
          have hrest := ih t'
          simp only [runLog]
          refine ⟨fun rest last h => ?_, fun ss h => ?_⟩
          · rw [List.append_assoc]
            exact hcall.sequential _ _ (hrest.sequential rest last h)
          · rw [sessionsAfter_append]
            exact hrest.alone _ (hcall.alone ss h)

/-- In every run of a socket server, the connections are served as if each
was alone, and the handler is called for one request after the other. -/
theorem server_serves_each_alone (server : Server σ) (len : Nat) (arg : σ)
    (cs : List (TransportCall ServerOpen (Select ReadySet))) :
    let t := serverInit len arg
    let run := runLog server t (perform (serverStep (some server)) t cs)
    Sequential server arg run.1 run.2.arg ∧
      ∀ i c, run.2.conns[i]? = some c →
        Private server c (session i run.1) := by
  intro t run
  have hrun : CallLogged server t run.1 run.2 := perform_logged cs t
  have hinit : AllAlone server (fun _ => none) 0 t.conns :=
    ⟨rfl, rfl, rfl, rfl, trivial⟩
  refine ⟨?_, fun i c hc => ?_⟩
  · have hseq := hrun.sequential [] _ .nil
    rwa [List.append_nil] at hseq
  · have halone := (hrun.alone _ hinit).get hc
    rw [Nat.zero_add] at halone
    exact halone.toPrivate

end Lwpb
