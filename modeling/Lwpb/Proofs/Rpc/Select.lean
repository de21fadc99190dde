/-
The sockets an update watches.

The update hands `select` the set of its sockets, and the number above
`high`. The loop sets `high` to the socket of each open connection in turn,
so it ends with the last one, not with the greatest. Every socket is watched
exactly if the two are the same, which is a matter of what each call closes
and accepts (`watched_iff`): a small number, handed out again, goes into the
first free connection, and may be the last one all the same.

The calls of an update are made in the monad of `Lib/Ledger.lean`, and for
each of them there is one rule that says which sockets it leaves open, in
order (`takeConnection_gives`, `handleActive_gives`,
`handleConnections_gives`); an update is their composition
(`serverUpdate_gives`). The run is then an induction over its calls, with
the open connections as the invariant.
-/
import Lwpb.Proofs.Rpc.Lifecycle

namespace Lwpb

open Machine Traced

variable {σ : Type}

-- =============================================================== properties

/-- Every socket in the set is below `nfds`. -/
def Watched (t : ServerTransport σ) : Prop :=
  ∀ fds nfds, selectArgs t = some (fds, nfds) → ∀ fd ∈ fds, fd < nfds

/-- The call comes back. -/
def CallMade.Returns {τ ο υ : Type} (m : CallMade τ ο υ) : Prop :=
  ∃ r es, m.outcome = .back r es

/-- A run whose calls leave every socket watched, and find it so. -/
def AlwaysWatched (run : List (CallMade (ServerTransport σ) ServerOpen
    (Select ReadySet))) : Prop :=
  ∀ m ∈ run, Watched m.before ∧
    ∀ t ret es, m.outcome = .back (t, ret) es → Watched t

/-- A connection's buffer, allocated if there is none. -/
def withBuf (alloc : AllocBuf) (c : ServerConn) : ServerConn :=
  match c.buf, alloc with
  | none, some (b, len) => { c with buf := some b, len := len }
  | _, _ => c

/-- The connections with a new one: the first free one gets the socket. -/
def taken (n : Nat) (alloc : AllocBuf) : List ServerConn → List ServerConn
  | [] => []
  | c :: conns =>
      if c.socket.isNone then
        { withBuf alloc { c with socket := some n } with received := [] }
          :: conns
      else c :: taken n alloc conns

/-- The connections behind the listen socket's turn. -/
def listened (conns : List ServerConn) :
    Option NewConnection → List ServerConn
  | some ⟨some n, _, alloc⟩ => taken n alloc conns
  | _ => conns

/-- A connection is closed if it can be read from and nothing comes. -/
def closes (readable : Nat → Option Readable) (c : ServerConn) : Bool :=
  match c.socket.bind readable with
  | none => false
  | some r => (r.recv c).length = 0

/-- The sockets of connections, in order. -/
def openSockets (conns : List ServerConn) : List Nat :=
  conns.filterMap (·.socket)

/-- The sockets an update leaves open. -/
def leftOpen (set : ReadySet) (conns : List ServerConn) : List Nat :=
  openSockets ((listened conns set.listening).filter
    fun c => !closes set.readable c)

/-- The last socket, if there is one, is the greatest, the listen socket's
included. -/
def EndsHighest (listen : Nat) (fds : List Nat) : Prop :=
  ∀ last, fds.getLast? = some last → ∀ fd ∈ listen :: fds, fd ≤ last

/-- An update of an open transport leaves open connections the last of which
has the greatest socket. -/
def OrderedCall (t : ServerTransport σ) :
    TransportCall ServerOpen (Select ReadySet) → Prop
  | .updateCall (.ready set) =>
      ∀ s, t.socket = some s → EndsHighest s (leftOpen set t.conns)
  | _ => True

-- ==================================================================== select

/-- The set handed to `select` has the listening socket and the open
connections, and its highest number is that of the last open one. -/
theorem activeSockets_eq (fds : List Nat) (high : Nat)
    (conns : List ServerConn) :
    activeSockets fds high conns
      = ((openSockets conns).reverse ++ fds,
        (openSockets conns).getLast?.getD high) := by
  induction conns generalizing fds high with
  | nil => rfl
  | cons c conns ih =>
      unfold activeSockets openSockets
      cases hc : c.socket with
      | none =>
          simp only
          rw [ih, List.filterMap_cons_none hc]
          rfl
      | some n =>
          simp only
          rw [ih, List.filterMap_cons_some hc]
          simp [openSockets, List.getLast?_cons]

/-- The sockets are watched exactly if the last one is the greatest. -/
theorem watched_iff_endsHighest {t : ServerTransport σ} :
    Watched t ↔
      ∀ s, t.socket = some s → EndsHighest s (openSockets t.conns) := by
  unfold Watched selectArgs EndsHighest
  cases t.socket with
  | none => exact iff_of_true nofun nofun
  | some s =>
      rw [Option.map_some, activeSockets_eq]
      cases hlast : (openSockets t.conns).getLast? with
      | none =>
          rw [List.getLast?_eq_none_iff.mp hlast]
          refine iff_of_true (fun fds nfds heq fd hfd => ?_) nofun
          obtain ⟨rfl, rfl⟩ := Prod.mk.inj (Option.some.inj heq)
          rw [List.mem_singleton.mp hfd]
          exact Nat.lt_succ_self s
      | some last =>
          have hset : ∀ fd, fd ∈ (openSockets t.conns).reverse ++ [s] ↔
              fd ∈ s :: openSockets t.conns := by
            intro fd
            simp [or_comm]
          constructor
          · intro h s' hs last' hlast' fd hfd
            obtain rfl := Option.some.inj hs
            obtain rfl := Option.some.inj hlast'
            exact Nat.lt_succ_iff.mp (h _ _ rfl fd ((hset fd).mpr hfd))
          · intro h fds nfds heq fd hfd
            obtain ⟨rfl, rfl⟩ := Prod.mk.inj (Option.some.inj heq)
            exact Nat.lt_succ_iff.mpr (h s rfl last rfl fd
              ((hset fd).mp hfd))

-- =================================================================== calls

/-- A connection gets its buffer. -/
theorem connBuf_gives (alloc : AllocBuf) (c : ServerConn) :
    (connBuf alloc c).Gives (· = withBuf alloc c) := by
  unfold connBuf withBuf
  cases c.buf with
  | some b => exact .pure rfl
  | none =>
      cases alloc with
      | none => exact .pure rfl
      | some bl => exact .then (.pure rfl)

/-- A new connection is put in the first free place. -/
theorem takeConnection_gives (n : Nat) (alloc : AllocBuf) (numConns : Int)
    (conns : List ServerConn) :
    (takeConnection n alloc numConns conns).Gives
      (·.1 = taken n alloc conns) := by
  induction conns with
  | nil => exact .then (.pure rfl)
  | cons c conns ih =>
      unfold takeConnection taken
      by_cases hfree : c.socket.isNone
      · rw [if_pos hfree, if_pos hfree]
        refine (connBuf_gives alloc _).bind fun c' hc' => .pure ?_
        rw [hc']
      · rw [if_neg hfree, if_neg hfree]
        refine ih.bind fun r hr => .pure ?_
        rw [hr]

/-- The listening socket changes the connections only. -/
theorem handleListening_gives (t : ServerTransport σ)
    (listening : Option NewConnection) :
    (handleListening t listening).Gives fun t' =>
      t'.socket = t.socket ∧ t'.conns = listened t.conns listening := by
  unfold handleListening
  cases listening with
  | none => exact .pure ⟨rfl, rfl⟩
  | some sys =>
      unfold handleNewConnection
      cases haccept : sys.accept with
      | none =>
          obtain ⟨accept, nonblock, alloc⟩ := sys
          obtain rfl : accept = none := haccept
          exact .pure ⟨rfl, rfl⟩
      | some n =>
          obtain ⟨accept, nonblock, alloc⟩ := sys
          obtain rfl : accept = some n := haccept
          refine .then ?_
          cases nonblock with
          | false => exact .stop
          | true =>
              refine (takeConnection_gives n alloc t.numConns t.conns).bind
                fun r hr => .pure ⟨rfl, hr⟩

/-- A connection is closed when nothing is received. -/
theorem handleReadable_gives (server : Option (Server σ)) (r : Readable)
    (numConns : Int) (arg : σ) (c : ServerConn) :
    (handleReadable server r numConns arg c).Gives fun r' =>
      r'.1.socket = if (r.recv c).length = 0 then none else c.socket := by
  unfold handleReadable
  refine .then ?_
  by_cases hlen : (r.recv c).length = 0
  · rw [if_pos hlen, if_pos hlen]
    exact .bind (P := fun r' => r'.1.socket = none) (.then (.pure rfl))
      fun r' hr' => .pure hr'
  · rw [if_neg hlen, if_neg hlen]
    cases server with
    | none => exact .stop
    | some server =>
        simp only
        cases handleConnection server r.locals c.conn arg (r.recv c) with
        | abort => exact .stop
        | fault f => exact .stop
        | done conn arg' actions =>
            simp only
            by_cases hsend : (!actions.isEmpty && !r.response) = true
            · rw [if_pos hsend]
              exact .stop
            · rw [if_neg hsend]
              exact .pure rfl

/-- A connection that is not ready is left as it is. -/
theorem handleActive_gives (server : Option (Server σ))
    (readable : Nat → Option Readable) (numConns : Int) (arg : σ)
    (c : ServerConn) :
    (handleActive server readable numConns arg c).Gives fun r =>
      r.1.socket = if closes readable c then none else c.socket := by
  unfold handleActive closes
  cases c.socket.bind readable with
  | none => exact .pure rfl
  | some r =>
      simp only [decide_eq_true_eq]
      exact handleReadable_gives server r numConns arg c

/-- After an update the open sockets are those of the connections that were
not closed. -/
theorem handleConnections_gives (server : Option (Server σ))
    (readable : Nat → Option Readable) (numConns : Int) (arg : σ)
    (conns : List ServerConn) :
    (handleConnections server readable numConns arg conns).Gives fun r =>
      openSockets r.1
        = openSockets (conns.filter fun c => !closes readable c) := by
  induction conns generalizing numConns arg with
  | nil => exact .pure rfl
  | cons c conns ih =>
      unfold handleConnections
      refine (handleActive_gives server readable numConns arg c).bind
        fun r hr => ?_
      obtain ⟨c', numConns', arg'⟩ := r
      refine (ih numConns' arg').bind fun r' hr' => .pure ?_
      obtain ⟨conns', numConns'', arg''⟩ := r'
      simp only at hr hr' ⊢
      unfold openSockets at hr' ⊢
      by_cases hcloses : closes readable c
      · rw [if_pos hcloses] at hr
        rw [List.filterMap_cons_none hr, hr', List.filter_cons_of_neg]
        simp [hcloses]
      · rw [if_neg hcloses] at hr
        rw [List.filterMap_cons, hr, hr', List.filter_cons_of_pos,
          List.filterMap_cons]
        simp [hcloses]

/-- An update leaves these sockets open. -/
theorem serverUpdate_gives (server : Option (Server σ))
    (t : ServerTransport σ) (set : ReadySet) (hopen : t.socket ≠ none) :
    (serverUpdate server t (.ready set)).Gives fun r =>
      r.1.socket = t.socket ∧
        openSockets r.1.conns = leftOpen set t.conns := by
  unfold serverUpdate leftOpen
  rw [if_neg (by simpa using hopen)]
  refine (handleListening_gives t set.listening).bind fun t' ht' => ?_
  rw [← ht'.1, ← ht'.2]
  exact (handleConnections_gives server set.readable t'.numConns t'.arg
    t'.conns).bind fun r hr => .pure ⟨rfl, hr⟩

/-- Closing leaves no socket open. -/
theorem closeConnections_gives (numConns : Int) (conns : List ServerConn) :
    (closeConnections numConns conns).Gives (openSockets ·.1 = []) := by
  induction conns generalizing numConns with
  | nil => exact .pure rfl
  | cons c conns ih =>
      unfold closeConnections
      have hclosed : (closeActive numConns c).Gives (·.1.socket = none) := by
        unfold closeActive
        by_cases hsocket : c.socket.isSome
        · rw [if_pos hsocket]
          exact .then (.pure rfl)
        · rw [if_neg hsocket]
          exact .pure (by simpa using hsocket)
      refine hclosed.bind fun r hr => ?_
      refine (ih r.2).bind fun r' hr' => .pure ?_
      exact (List.filterMap_cons_none hr).trans hr'

/-- Opening does not change the connections. -/
theorem serverOpen_gives (t : ServerTransport σ) (sys : ServerOpen) :
    (serverOpen t sys).Gives (·.1.conns = t.conns) := by
  unfold serverOpen closeFd
  refine .ite (.pure rfl) (.ite (.ite (.pure rfl) .stop) ?_)
  cases sys.socket with
  | none => exact .pure rfl
  | some n =>
      exact .then (.ite (.pure rfl) (.ite .stop (.ite (.pure rfl)
        (.ite (.then (.pure rfl)) (.pure rfl)))))

-- ==================================================================== runs

/-- A transport that is not open has no open connection. -/
def IdleClosed (t : ServerTransport σ) : Prop :=
  t.socket = none → openSockets t.conns = []

/-- Without connections, all of them are watched. -/
theorem watched_of_idle {t : ServerTransport σ} (h : openSockets t.conns = []) :
    Watched t := by
  rw [watched_iff_endsHighest, h]
  exact fun s hs => nofun

/-- A call leaves every socket watched exactly if it is ordered. -/
theorem serverStep_gives (server : Option (Server σ)) {t : ServerTransport σ}
    (hidle : IdleClosed t) (hwatched : Watched t)
    (c : TransportCall ServerOpen (Select ReadySet)) :
    (serverStep server t c).Gives fun r =>
      IdleClosed r.1 ∧ (Watched r.1 ↔ OrderedCall t c) := by
  have hsame : ∀ ret, OrderedCall t c →
      (pure (t, ret) : Sys (ServerTransport σ × Option Err)).Gives fun r =>
        IdleClosed r.1 ∧ (Watched r.1 ↔ OrderedCall t c) := fun ret hc =>
    .pure ⟨hidle, iff_of_true hwatched hc⟩
  cases c with
  | openCall sys =>
      by_cases hsocket : t.socket = none
      · intro r es heq
        have hconns : openSockets r.1.conns = [] := by
          rw [serverOpen_gives t sys r es heq, hidle hsocket]
        exact ⟨fun _ => hconns, iff_of_true (watched_of_idle hconns) trivial⟩
      · simp only [serverStep, serverOpen_opened sys hsocket]
        exact hsame _ trivial
  | closeCall =>
      unfold serverStep serverClose
      refine .ite (hsame _ trivial) ?_
      refine (closeConnections_gives t.numConns t.conns).bind fun r hr => ?_
      exact .then (.pure ⟨fun _ => hr, iff_of_true (watched_of_idle hr) trivial⟩)
  | updateCall sys =>
      by_cases hsocket : t.socket = none
      · simp only [serverStep, serverUpdate_closed server hsocket sys]
        refine hsame _ ?_
        cases sys with
        | failed => trivial
        | timeout => trivial
        | ready set => exact fun s hs => by simp [hsocket] at hs
      · cases sys with
        | ready set =>
            intro r es heq
            obtain ⟨hkept, hleft⟩ :=
              serverUpdate_gives server t set hsocket r es heq
            refine ⟨fun hnone => absurd (hkept ▸ hnone) hsocket, ?_⟩
            rw [watched_iff_endsHighest, hkept, hleft]
            rfl
        | failed =>
            unfold serverStep serverUpdate
            exact .ite (hsame _ trivial) .stop
        | timeout =>
            unfold serverStep serverUpdate
            exact .ite (hsame _ trivial) (hsame _ trivial)

/-- Over a run, all connections are watched if and only if every call finds
them in order. -/
theorem alwaysWatched_perform (server : Option (Server σ))
    {t : ServerTransport σ} (hidle : IdleClosed t) (hwatched : Watched t)
    (calls : List (TransportCall ServerOpen (Select ReadySet))) :
    AlwaysWatched (perform (serverStep server) t calls) ↔
      ∀ m ∈ perform (serverStep server) t calls, m.Returns →
        OrderedCall m.before m.call := by
  induction calls generalizing t with
  | nil => exact iff_of_true (fun _ hm => by cases hm) fun _ hm => by cases hm
  | cons c calls ih =>
      have hstep := serverStep_gives server hidle hwatched c
      cases hcall : serverStep server t c with
      | gone es =>
          have hrun : perform (serverStep server) t (c :: calls)
              = [⟨t, c, .gone es⟩] := by rw [perform, hcall]
          rw [hrun]
          constructor
          · intro _ m hm hret
            obtain rfl := List.mem_singleton.mp hm
            obtain ⟨r, es', heq⟩ := hret
            cases heq
          · intro _ m hm
            obtain rfl := List.mem_singleton.mp hm
            exact ⟨hwatched, fun _ _ _ heq => by cases heq⟩
      | back r es =>
          obtain ⟨hidle', hiff⟩ := hstep r es hcall
          have hrun : perform (serverStep server) t (c :: calls)
              = ⟨t, c, .back r es⟩ :: perform (serverStep server) r.1 calls := by
            rw [perform, hcall]
          rw [hrun]
          constructor
          · intro h
            obtain ⟨hfirst, hrest⟩ := List.forall_mem_cons.mp h
            have hnext := hfirst.2 r.1 r.2 es rfl
            exact List.forall_mem_cons.mpr
              ⟨fun _ => hiff.mp hnext, (ih hidle' hnext).mp hrest⟩
          · intro h
            obtain ⟨hfirst, hrest⟩ := List.forall_mem_cons.mp h
            have hnext := hiff.mpr (hfirst ⟨r, es, rfl⟩)
            refine List.forall_mem_cons.mpr
              ⟨⟨hwatched, fun t' ret es' heq => ?_⟩,
                (ih hidle' hnext).mpr hrest⟩
            obtain ⟨rfl, -⟩ := Traced.back.inj heq
            exact hnext

/-- Every socket is watched in every state of a run if and only if every
call leaves the connection with the greatest socket in the last place. -/
theorem watched_iff (server : Option (Server σ)) (len : Nat) (arg : σ)
    (calls : List (TransportCall ServerOpen (Select ReadySet))) :
    AlwaysWatched (perform (serverStep server) (serverInit len arg) calls) ↔
      ∀ m ∈ perform (serverStep server) (serverInit len arg) calls,
        m.Returns → OrderedCall m.before m.call :=
  alwaysWatched_perform server (fun _ => rfl) (watched_of_idle rfl) calls

/-- A listen socket 3, a connection 7, and behind it a connection 4. -/
theorem greatest_not_last :
    let run := perform (serverStep none) (serverInit 0 ())
      [.openCall ⟨true, true, some 3, true, true, true, true⟩,
        .updateCall (.ready ⟨some ⟨some 7, true, none⟩, fun _ => none⟩),
        .updateCall (.ready ⟨some ⟨some 4, true, none⟩, fun _ => none⟩)]
    (∃ m ∈ run, ∃ t ret es, m.outcome = .back (t, ret) es ∧
        selectArgs t = some ([4, 7, 3], 5)) ∧
      ¬ AlwaysWatched run := by
  intro run
  have hlast : ∃ m ∈ run, ∃ t ret es, m.outcome = .back (t, ret) es ∧
      selectArgs t = some ([4, 7, 3], 5) :=
    ⟨_, .tail _ (.tail _ (.head _)), _, _, _, rfl, rfl⟩
  refine ⟨hlast, fun h => ?_⟩
  obtain ⟨m, hm, t, ret, es, hback, hargs⟩ := hlast
  have hlt := (h m hm).2 t ret es hback _ _ hargs 7 (by decide)
  revert hlt
  decide

end Lwpb
