/-
A client and a server over a pair of sockets.

The two programs run side by side, with a reliable byte stream in either
direction between them. A step is a call of `lwpb_client_call`, or of one
of the two update functions: the server's handles its one connection, the
client's its socket, and either reads from the stream that ends there what
`recv` gives it, one byte at least. Any list of steps is an interleaving.

With nothing under way `select` times out, as long as the other end is
open. It is not if the other program has closed it or is gone: an assertion
has failed there, or the behaviour is undefined. `recv` returns 0 then.
What is sent to an end that is closed is never read.
-/
import Lwpb.Rpc.Client

namespace Lwpb

/-- Two programs, `none` if gone, and what is under way between them. -/
structure Network (σ : Type) where
  client : Option SocketClient
  server : Option (Conn × σ)
  requests : Bytes
  responses : Bytes

/-- What the two programs do that is seen outside. -/
inductive NetAction where
  | client (a : ClientAction)
  | server (a : Action)
  deriving Repr, DecidableEq

/-- A step; `n + 1` bytes are there to be read by then, if that many are
under way. -/
inductive NetStep where
  | call (l : Locals) (m : MethodRef) (handled : Err × Bytes)
  | serverUpdate (l : Locals) (n : Nat)
  | clientUpdate (l : Locals) (n : Nat)

variable {σ : Type}

/-- What is sent by an action of the client. -/
def ClientAction.sentBytes : ClientAction → Bytes
  | .sent _ bytes => bytes
  | _ => []

/-- What is sent by an action of the server. -/
def Action.sentBytes : Action → Bytes
  | .response bytes => bytes
  | _ => []

/-- The connection is open at the client's end. -/
def Network.clientConnected (net : Network σ) : Bool :=
  net.client.any (·.connected)

/-- The connection is open at the server's end. -/
def Network.serverConnected (net : Network σ) : Bool :=
  net.server.any (·.1.connected)

/-- What a step of the client comes to, when it has read `n` bytes. -/
def Network.clientRet (net : Network σ) (n : Nat) :
    ClientRet → Network σ × List NetAction
  | .abort | .fault _ => ({ net with client := none }, [])
  | .done c actions =>
      ({ net with
          client := some c
          requests := net.requests ++ actions.flatMap ClientAction.sentBytes
          responses := net.responses.drop n },
        actions.map .client)

/-- What a step of the server comes to, when it has read `n` bytes. -/
def Network.serverRet (net : Network σ) (n : Nat) :
    Handled σ → Network σ × List NetAction
  | .abort | .fault _ => ({ net with server := none }, [])
  | .done conn arg actions =>
      ({ net with
          server := some (conn, arg)
          requests := net.requests.drop n
          responses := net.responses ++ actions.flatMap Action.sentBytes },
        actions.map .server)

/-- What `recv` returns of a stream, when it is asked for `room` bytes and
`n + 1` bytes are there. -/
def recv (room n : Nat) (stream : Bytes) : Bytes :=
  (stream.take (n + 1)).take room

/-- A step. -/
def Network.step (server : Server σ) (services : List ServiceDesc)
    (net : Network σ) : NetStep → Network σ × List NetAction
  | .call l m handled =>
      match net.client with
      | none => (net, [])
      | some c => net.clientRet 0 (transportCall services l c m handled)
  | .serverUpdate l n =>
      match net.server with
      | none => (net, [])
      | some (conn, arg) =>
          if !conn.connected then (net, [])
          else if net.requests.isEmpty && net.clientConnected then (net, [])
          else
            let chunk := recv (conn.len - conn.received.length) n net.requests
            net.serverRet chunk.length
              (handleConnection server l conn arg chunk)
  | .clientUpdate l n =>
      match net.client with
      | none => (net, [])
      | some c =>
          if !c.connected then (net, [])
          else if net.responses.isEmpty && net.serverConnected then (net, [])
          else
            let chunk := recv (c.len - c.received.length) n net.responses
            net.clientRet chunk.length
              (clientUpdate services l c (some chunk))

/-- Make the steps one after the other: the network behind them, and all
that was done. -/
def Network.run (server : Server σ) (services : List ServiceDesc) :
    Network σ → List NetStep → Network σ × List NetAction
  | net, [] => (net, [])
  | net, step :: steps =>
      let (net, actions) := net.step server services step
      let (net, rest) := net.run server services steps
      (net, actions ++ rest)

/-- A fresh connection between two programs. -/
def Network.start (clientLen serverLen : Nat) (arg : σ) : Network σ :=
  ⟨some ⟨true, [], clientLen, none⟩, some (⟨[], serverLen, true⟩, arg), [],
    []⟩

end Lwpb
