/-
The direct transport: `rpc/direct.c`, and `rpc/transport.c` under it.

A call runs both handlers of the client and the one of the server before
it returns, and a handler may make calls itself. A script says what the
allocator and the handlers come to, call by call, and which calls are made
inside a handler. A run of it leaves the handler calls with what they come
to, and the buffers obtained, used and given back, in order.

`transport_call` of `rpc/socket_server.c` is the same text, and nothing
reaches it: no client can be registered there.
-/
import Lwpb.Lib.Ledger
import Lwpb.Rpc.Transport

namespace Lwpb

open Machine

-- ================================================================ handlers

/-- A call of a handler of the user, with what it is told. -/
inductive HandlerCall where
  | request (method : MethodRef) (reqDesc : MsgRef)
  | call (method : MethodRef) (reqDesc : MsgRef) (req : Bytes)
      (resDesc : MsgRef)
  | response (method : MethodRef) (resDesc : MsgRef) (res : Bytes)
  | done (method : MethodRef) (result : RpcResult)
  deriving Repr, DecidableEq

/-- What is seen of a run. -/
inductive DirectEvent where
  | buffer (e : Entry Nat)
  | handler (c : HandlerCall)
  /-- A handler returns, with what it has written into its buffer. -/
  | returned (ret : Err) (written : Bytes)
  deriving Repr, DecidableEq

/-- What a call of `transport_call` depends on: the buffers that it is
given, the codes of the three handlers, and the messages that two of them
write. -/
structure DirectSys where
  reqBuf : AllocBuf
  resBuf : AllocBuf
  request : Err × Bytes
  called : Err × Bytes
  response : Err
  deriving Repr, DecidableEq

/-- What is seen of the calls that the handlers make. -/
structure Within where
  request : List DirectEvent
  call : List DirectEvent
  response : List DirectEvent
  done : List DirectEvent

-- =============================================================== the call

/-- `transport_call` from the request handler to `out`, and its code. -/
def directExchange (services : List ServiceDesc) (server : Bool)
    (m : MethodRef) (sys : DirectSys) (within : Within)
    (reqBuf resBuf : Nat) : List DirectEvent × Err :=
  let desc := methodOf services m
  let (ret, req) := sys.request
  let requested := .handler (.request m desc.reqDesc) :: within.request
    ++ [.returned ret req, .buffer (.use reqBuf)]
  if ret ≠ .ok then (requested, ret)
  else if !server then
    -- the code is the one of the request handler
    (requested ++ .handler (.done m .notConnected) :: within.done, ret)
  else
    let (ret, res) := sys.called
    let called := requested ++ .buffer (.use reqBuf)
      :: .handler (.call m desc.reqDesc req desc.resDesc) :: within.call
      ++ [.returned ret res, .buffer (.use resBuf)]
    if ret ≠ .ok then
      (called ++ .handler (.done m .failed) :: within.done, ret)
    else
      (called ++ .buffer (.use resBuf)
        :: .handler (.response m desc.resDesc res) :: within.response
        ++ .returned sys.response []
        :: .handler (.done m .ok) :: within.done, sys.response)

/-- `transport_call`. -/
def directTransportCall (services : List ServiceDesc) (server : Bool)
    (m : MethodRef) (sys : DirectSys) (within : Within) :
    List DirectEvent × Err :=
  match sys.reqBuf with
  | none => ([], .mem)
  | some (reqBuf, _) =>
      match sys.resBuf with
      | none => ([.buffer (.acquire reqBuf), .buffer (.release reqBuf)], .mem)
      | some (resBuf, _) =>
          let (events, ret) :=
            directExchange services server m sys within reqBuf resBuf
          (.buffer (.acquire reqBuf) :: .buffer (.acquire resBuf) :: events
            ++ [.buffer (.release reqBuf), .buffer (.release resBuf)], ret)

-- ================================================================ scripts

/-- Calls of `lwpb_client_call`, one after the other, each with the calls
made inside its handlers. -/
inductive DirectScript where
  | nil
  | call (m : MethodRef) (sys : DirectSys)
      (inRequest inCall inResponse inDone rest : DirectScript)
  deriving Repr, DecidableEq

/-- A run of a script. -/
def DirectScript.run (services : List ServiceDesc) (server : Bool) :
    DirectScript → List DirectEvent
  | .nil => []
  | .call m sys inRequest inCall inResponse inDone rest =>
      (directTransportCall services server m sys
        ⟨inRequest.run services server, inCall.run services server,
          inResponse.run services server, inDone.run services server⟩).1
        ++ rest.run services server

/-- The handler calls of a run. -/
def DirectEvent.handlerCall : DirectEvent → Option HandlerCall
  | .handler c => some c
  | _ => none

/-- What a run does to the buffers. -/
def DirectEvent.bufferEntry : DirectEvent → Option (Entry Nat)
  | .buffer e => some e
  | _ => none

/-- The event is one of the handlers'. -/
def DirectEvent.ofHandler : DirectEvent → Bool
  | .buffer _ => false
  | _ => true

end Lwpb
