/-
Opening, closing and updating the socket transports:
`rpc/socket_client.c`, `rpc/socket_server.c`.

A descriptor field that is -1 is `none`, and so is a `NULL` buffer. What a
call obtains, uses and gives back (descriptors, and the receive buffers) is
its trail. What the system calls come to is part of the call: the steps of
an open are made until one fails, and what the later ones would have come
to is not looked at.

`LWPB_FAIL` aborts. A call that aborts, or whose behaviour is undefined
from some point on, does not come back. `freeaddrinfo` of a pointer that
`getaddrinfo` has not set is undefined as well; that call may come back, as
if nothing had been freed.

The content of a receive buffer is treated as by `handleConnection` and
`clientUpdate`. `recv` into no buffer fails.
-/
import Lwpb.Lib.Ledger
import Lwpb.Rpc.Client

namespace Lwpb

open Machine Traced

-- ================================================================= handles

/-- What a transport obtains from the system. -/
inductive Handle where
  | fd (n : Nat)
  | buf (n : Nat)
  deriving Repr, DecidableEq

/-- A call that leaves a trail. -/
abbrev Sys := Traced Handle

/-- A call of a transport, with what the system calls under it come to. -/
inductive TransportCall (ο υ : Type) where
  | openCall (sys : ο)
  | closeCall
  | updateCall (sys : υ)

/-- What `select` comes to. -/
inductive Select (α : Type) where
  | failed
  | timeout
  | ready (a : α)

/-- `lwpb_transport_alloc_buf`: a buffer and its length, or
`LWPB_ERR_MEM`. -/
abbrev AllocBuf := Option (Nat × Nat)

/-- Use a buffer, unless it is `NULL`. -/
def useBuf : Option Nat → Sys Unit
  | none => pure ()
  | some b => emit (.use (.buf b))

/-- `lwpb_transport_free_buf`. -/
def freeBuf : Option Nat → Sys Unit
  | none => pure ()
  | some b => emit (.release (.buf b))

/-- `close`; of -1 it fails. -/
def closeFd : Option Nat → Sys Unit
  | none => pure ()
  | some n => emit (.release (.fd n))

-- ============================================================== the client

/-- `struct lwpb_transport_socket_client`. -/
structure ClientTransport where
  socket : Option Nat
  buf : Option Nat
  received : Bytes
  len : Nat
  lastMethod : Option MethodRef
  deriving Repr, DecidableEq

/-- What the calls that move data see of it. -/
def ClientTransport.client (t : ClientTransport) : SocketClient :=
  ⟨t.socket.isSome, t.received, t.len, t.lastMethod⟩

/-- `lwpb_transport_socket_client_init`. It sets neither the length nor the
last method. -/
def clientInit (len : Nat) (lastMethod : Option MethodRef) :
    ClientTransport :=
  ⟨none, none, [], len, lastMethod⟩

/-- What the system calls of `lwpb_transport_socket_client_open` come to;
`strayFreed`: freeing a `res` that was not set comes back. -/
structure ClientOpen where
  alloc : AllocBuf
  getaddrinfo : Bool
  strayFreed : Bool
  socket : Option Nat
  setsockopt : Bool
  connect : Bool
  nonblock : Bool
  deriving Repr, DecidableEq

/-- `lwpb_transport_socket_client_open`. -/
def clientOpen (t : ClientTransport) (sys : ClientOpen) :
    Sys (ClientTransport × Option Err) :=
  if t.socket.isSome then pure (t, some .ok)
  else
    match sys.alloc with
    | none => pure ({ t with buf := none }, some .mem)
    | some (b, len) => do
        emit (.acquire (.buf b))
        let t := { t with buf := some b, received := [], len := len }
        if !sys.getaddrinfo then
          if sys.strayFreed then return (t, some .netInit) else stop
        else
          match sys.socket with
          | none => return ({ t with socket := none }, some .netInit)
          | some n => do
              emit (.acquire (.fd n))
              let t := { t with socket := some n }
              if !sys.setsockopt then return (t, some .netInit)
              else if !sys.connect then return (t, some .netInit)
              else if !sys.nonblock then stop
              else return (t, some .ok)

/-- `lwpb_transport_socket_client_close`. -/
def clientClose (t : ClientTransport) : Sys (ClientTransport × Option Err) :=
  if t.socket.isNone then pure (t, none)
  else do
    freeBuf t.buf
    closeFd t.socket
    -- `socket_client->socket == -1` compares
    return (t, none)

/-- `lwpb_transport_socket_client_update`. -/
def clientTransportUpdate (services : List ServiceDesc) (t : ClientTransport)
    (sys : Select (Locals × Bytes)) : Sys (ClientTransport × Option Err) :=
  if t.socket.isNone then pure (t, none)
  else
    match sys with
    | .failed => stop
    | .timeout => pure (t, some .ok)
    | .ready (l, chunk) => do
        useBuf t.buf
        match clientUpdate services l t.client (some chunk) with
        | .abort | .fault _ => stop
        | .done c _ => return ({ t with received := c.received }, some .ok)

/-- Make a call of a client transport. -/
def clientStep (services : List ServiceDesc) (t : ClientTransport) :
    TransportCall ClientOpen (Select (Locals × Bytes)) →
      Sys (ClientTransport × Option Err)
  | .openCall sys => clientOpen t sys
  | .closeCall => clientClose t
  | .updateCall sys => clientTransportUpdate services t sys

-- ============================================================== the server

/-- `struct lwpb_socket_server_conn`. -/
structure ServerConn where
  socket : Option Nat
  buf : Option Nat
  received : Bytes
  len : Nat
  deriving Repr, DecidableEq

/-- What the calls that move data see of it. -/
def ServerConn.conn (c : ServerConn) : Conn :=
  ⟨c.received, c.len, c.socket.isSome⟩

/-- `LWPB_TRANSPORT_SOCKET_SERVER_CONNS`. -/
def serverConns : Nat := 4

/-- `struct lwpb_transport_socket_server`, with the state of the user's
handler. -/
structure ServerTransport (σ : Type) where
  socket : Option Nat
  numConns : Int
  conns : List ServerConn
  arg : σ

/-- `lwpb_transport_socket_server_init`. It does not set the lengths. -/
def serverInit {σ : Type} (len : Nat) (arg : σ) : ServerTransport σ :=
  ⟨none, 0, List.replicate serverConns ⟨none, none, [], len⟩, arg⟩

/-- What the system calls of `lwpb_transport_socket_server_open` come to. -/
structure ServerOpen where
  getaddrinfo : Bool
  strayFreed : Bool
  socket : Option Nat
  setsockopt : Bool
  nonblock : Bool
  bind : Bool
  listen : Bool
  deriving Repr, DecidableEq

variable {σ : Type}

/-- `lwpb_transport_socket_server_open`. -/
def serverOpen (t : ServerTransport σ) (sys : ServerOpen) :
    Sys (ServerTransport σ × Option Err) :=
  if t.socket.isSome then pure (t, some .ok)
  else if !sys.getaddrinfo then
    if sys.strayFreed then pure (t, some .netInit) else stop
  else
    match sys.socket with
    | none => pure ({ t with socket := none }, some .netInit)
    | some n => do
        emit (.acquire (.fd n))
        let t := { t with socket := some n }
        if !sys.setsockopt then return (t, some .netInit)
        else if !sys.nonblock then stop
        else if !sys.bind then return (t, some .netInit)
        else if !sys.listen then do
          closeFd t.socket
          return (t, some .netInit)
        else return (t, some .ok)

/-- `close_connection`: the connection, and `num_conns` behind it. -/
def closeConnection (numConns : Int) (c : ServerConn) :
    Sys (ServerConn × Int) := do
  closeFd c.socket
  return ({ c with socket := none }, numConns - 1)

/-- The body of the loop of `lwpb_transport_socket_server_close`. -/
def closeActive (numConns : Int) (c : ServerConn) : Sys (ServerConn × Int) :=
  if c.socket.isSome then closeConnection numConns c else pure (c, numConns)

/-- The loop of `lwpb_transport_socket_server_close`. -/
def closeConnections (numConns : Int) :
    List ServerConn → Sys (List ServerConn × Int)
  | [] => pure ([], numConns)
  | c :: conns => do
      let (c, numConns) ← closeActive numConns c
      let (conns, numConns) ← closeConnections numConns conns
      return (c :: conns, numConns)

/-- `lwpb_transport_socket_server_close`. -/
def serverClose (t : ServerTransport σ) :
    Sys (ServerTransport σ × Option Err) :=
  if t.socket.isNone then pure (t, none)
  else do
    let (conns, numConns) ← closeConnections t.numConns t.conns
    closeFd t.socket
    -- `socket_server->socket == -1` compares
    return ({ t with conns := conns, numConns := numConns }, none)

/-- A connection on the listen socket: what `accept`, `fcntl` and, where a
buffer is needed, the allocator come to. -/
structure NewConnection where
  accept : Option Nat
  nonblock : Bool
  alloc : AllocBuf
  deriving Repr, DecidableEq

/-- A buffer for a connection, unless it has one. The code of the allocator
is not looked at. -/
def connBuf (alloc : AllocBuf) (c : ServerConn) : Sys ServerConn :=
  match c.buf, alloc with
  | some _, _ => pure c
  | none, none => pure c
  | none, some (b, len) => do
      emit (.acquire (.buf b))
      return { c with buf := some b, len := len }

/-- The loop of `handle_new_connection`: the first free connection gets the
socket; if there is none, it is closed. -/
def takeConnection (n : Nat) (alloc : AllocBuf) (numConns : Int) :
    List ServerConn → Sys (List ServerConn × Int)
  | [] => do
      closeFd (some n)
      return ([], numConns)
  | c :: conns =>
      if c.socket.isNone then do
        let c ← connBuf alloc { c with socket := some n }
        return ({ c with received := [] } :: conns, numConns + 1)
      else do
        let (conns, numConns) ← takeConnection n alloc numConns conns
        return (c :: conns, numConns)

/-- `handle_new_connection`. -/
def handleNewConnection (t : ServerTransport σ) (sys : NewConnection) :
    Sys (ServerTransport σ) :=
  match sys.accept with
  | none => pure t
  | some n => do
      emit (.acquire (.fd n))
      if !sys.nonblock then stop
      else do
        let (conns, numConns) ←
          takeConnection n sys.alloc t.numConns t.conns
        return { t with conns := conns, numConns := numConns }

/-- A new connection, if one waits. -/
def handleListening (t : ServerTransport σ) :
    Option NewConnection → Sys (ServerTransport σ)
  | none => pure t
  | some sys => handleNewConnection t sys

/-- A connection that can be read from: what `recv` returns (nothing if it
fails), and whether there is a buffer for a response. -/
structure Readable where
  locals : Locals
  chunk : Bytes
  response : Bool

/-- What `recv` stores for a connection, if it is asked for what its buffer
has room for. -/
def Readable.recv (r : Readable) (c : ServerConn) : Bytes :=
  if c.buf.isNone then [] else r.chunk.take (c.len - c.received.length)

/-- `handle_connection`. Without a registered server, or a buffer for the
response, it reads through a `NULL` pointer, or hands one on. -/
def handleReadable (server : Option (Server σ)) (r : Readable)
    (numConns : Int) (arg : σ) (c : ServerConn) :
    Sys (ServerConn × Int × σ) := do
  useBuf c.buf
  if (r.recv c).length = 0 then do
    let (c, numConns) ← closeConnection numConns c
    return (c, numConns, arg)
  else
    match server with
    | none => stop
    | some server =>
        match handleConnection server r.locals c.conn arg (r.recv c) with
        | .abort | .fault _ => stop
        | .done conn arg actions =>
            if !actions.isEmpty && !r.response then stop
            else return ({ c with received := conn.received }, numConns, arg)

/-- What `select` reports: whether a connection waits, and what can be
read, by descriptor. -/
structure ReadySet where
  listening : Option NewConnection
  readable : Nat → Option Readable

/-- The body of the loop over the active connections. -/
def handleActive (server : Option (Server σ))
    (readable : Nat → Option Readable) (numConns : Int) (arg : σ)
    (c : ServerConn) : Sys (ServerConn × Int × σ) :=
  match c.socket.bind readable with
  | none => pure (c, numConns, arg)
  | some r => handleReadable server r numConns arg c

/-- The loop over the active connections. -/
def handleConnections (server : Option (Server σ))
    (readable : Nat → Option Readable) (numConns : Int) (arg : σ) :
    List ServerConn → Sys (List ServerConn × Int × σ)
  | [] => pure ([], numConns, arg)
  | c :: conns => do
      let (c, numConns, arg) ← handleActive server readable numConns arg c
      let (conns, numConns, arg) ←
        handleConnections server readable numConns arg conns
      return (c :: conns, numConns, arg)

/-- The loop that creates the set of active sockets: the set, and
`high`. -/
def activeSockets (fds : List Nat) (high : Nat) :
    List ServerConn → List Nat × Nat
  | [] => (fds, high)
  | c :: conns =>
      match c.socket with
      | none => activeSockets fds high conns
      | some n => activeSockets (n :: fds) n conns

/-- What `lwpb_transport_socket_server_update` hands to `select`: the set,
and the argument `nfds`. -/
def selectArgs (t : ServerTransport σ) : Option (List Nat × Nat) :=
  t.socket.map fun s =>
    let (fds, high) := activeSockets [s] s t.conns
    (fds, high + 1)

/-- `lwpb_transport_socket_server_update`. -/
def serverUpdate (server : Option (Server σ)) (t : ServerTransport σ)
    (sys : Select ReadySet) : Sys (ServerTransport σ × Option Err) :=
  if t.socket.isNone then pure (t, none)
  else
    match sys with
    | .failed => stop
    | .timeout => pure (t, some .ok)
    | .ready set => do
        let t ← handleListening t set.listening
        let (conns, numConns, arg) ←
          handleConnections server set.readable t.numConns t.arg t.conns
        return ({ t with conns := conns, numConns := numConns, arg := arg },
          some .ok)

/-- Make a call of a server transport. -/
def serverStep (server : Option (Server σ)) (t : ServerTransport σ) :
    TransportCall ServerOpen (Select ReadySet) →
      Sys (ServerTransport σ × Option Err)
  | .openCall sys => serverOpen t sys
  | .closeCall => serverClose t
  | .updateCall sys => serverUpdate server t sys

-- ==================================================================== runs

variable {τ ο υ : Type}

/-- A call that was made: the state in front of it, and what it came to. -/
structure CallMade (τ ο υ : Type) where
  before : τ
  call : TransportCall ο υ
  outcome : Sys (τ × Option Err)

/-- Make the calls one after the other, as long as they come back. -/
def perform (step : τ → TransportCall ο υ → Sys (τ × Option Err)) :
    τ → List (TransportCall ο υ) → List (CallMade τ ο υ)
  | _, [] => []
  | t, c :: cs =>
      ⟨t, c, step t c⟩ ::
        match step t c with
        | .gone _ => []
        | .back (t', _) _ => perform step t' cs

/-- The trail of the calls. -/
def trail (run : List (CallMade τ ο υ)) : List (Entry Handle) :=
  run.flatMap fun m => m.outcome.entries

end Lwpb
