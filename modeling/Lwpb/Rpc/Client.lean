/-
The client side of RPC over sockets: `rpc/client.c` and
`rpc/socket_client.c`.

A client keeps its receive buffer up to `socket_client->pos`, and the
method of the last call. A run is a list of steps: calls of
`lwpb_client_call`, and calls of `lwpb_transport_socket_client_update`,
for which data has arrived or not. What the user's request handler
returns is part of a step; what his response handler returns is never
looked at. Buffers are taken to be allocated, and `send` to transmit all
of its bytes.
-/
import Lwpb.Rpc.Socket

namespace Lwpb

-- =============================================================== the client

/-- `lwpb_rpc_result_t`. -/
inductive RpcResult where
  | ok
  | notConnected
  | failed
  deriving Repr, DecidableEq

/-- `struct lwpb_transport_socket_client`: whether there is a socket, the
bytes between `buf` and `pos`, the length of the buffer, and the method
of the last call. -/
structure SocketClient where
  connected : Bool
  received : Bytes
  len : Nat
  lastMethod : Option MethodRef
  deriving Repr, DecidableEq

/-- What a client does that is seen outside: the calls of its handlers,
and what it sends. -/
inductive ClientAction where
  | request (method : MethodRef) (reqDesc : MsgRef)
  | sent (method : MethodRef) (bytes : Bytes)
  | response (method : MethodRef) (resDesc : MsgRef) (res : Bytes)
  | done (method : MethodRef) (result : RpcResult)
  deriving Repr, DecidableEq

/-- What a step comes to. -/
inductive ClientRet where
  | done (c : SocketClient) (actions : List ClientAction)
  | abort
  | fault (f : Fault)
  deriving Repr, DecidableEq

/-- The service a method belongs to. -/
def serviceOf (services : List ServiceDesc) (m : MethodRef) : ServiceDesc :=
  services.getD m.service ⟨[], []⟩

/-- The descriptor a method pointer points at. -/
def methodOf (services : List ServiceDesc) (m : MethodRef) : MethodDesc :=
  (serviceOf services m).methods.getD m.method ⟨0, 0, []⟩

-- ==================================================================== calls

/-- `transport_call`. `handled` is what the request handler returns: its
code, and the message it encoded. -/
def transportCall (services : List ServiceDesc) (l : Locals)
    (c : SocketClient) (m : MethodRef) (handled : Err × Bytes) :
    ClientRet :=
  if !c.connected then .done c [.done m .notConnected]
  else
    let desc := methodOf services m
    let (ret, req) := handled
    if ret ≠ .ok then .done c [.request m desc.reqDesc]
    else
      let c := { c with lastMethod := some m }
      match sendRequest l (serviceOf services m).name desc.name req with
      | none => .abort
      | some bytes => .done c [.request m desc.reqDesc, .sent m bytes]

/-- `handle_data`, where `recv` returns the bytes `chunk`. -/
def handleData (services : List ServiceDesc) (l : Locals)
    (c : SocketClient) (chunk : Bytes) : ClientRet :=
  -- "Server closed connection"
  if chunk.length = 0 then .abort
  else
    let c := { c with received := c.received ++ chunk }
    -- with no service list nothing is looked up
    match parseRequest [] c.received l.wireValue with
    | .abort => .abort
    | .fault f => .fault f
    | .err => .done c []
    | .ok info =>
        match c.lastMethod with
        -- `last_method->res_desc`
        | none => .fault .nullDesc
        | some m => .done c
            [.response m (methodOf services m).resDesc
              ((c.received.drop info.headerLen).take info.msgLen)]

/-- `lwpb_transport_socket_client_update`: what arrived, or `none` if
`select` timed out. `recv` returns no more than it is asked for. -/
def clientUpdate (services : List ServiceDesc) (l : Locals)
    (c : SocketClient) (arrived : Option Bytes) : ClientRet :=
  if !c.connected then .done c []
  else
    match arrived with
    | none => .done c []
    | some chunk => handleData services l c
        (chunk.take (c.len - c.received.length))

-- ===================================================================== runs

/-- A step of a run. -/
inductive ClientStep where
  | call (l : Locals) (m : MethodRef) (handled : Err × Bytes)
  | update (l : Locals) (arrived : Option Bytes)

/-- Make a step. -/
def ClientStep.run (services : List ServiceDesc) (c : SocketClient) :
    ClientStep → ClientRet
  | .call l m handled => transportCall services l c m handled
  | .update l arrived => clientUpdate services l c arrived

/-- Make the steps one after the other: the actions, and whether every
step returned. -/
def runClient (services : List ServiceDesc) :
    SocketClient → List ClientStep → List ClientAction × Bool
  | _, [] => ([], true)
  | c, step :: steps =>
      match step.run services c with
      | .done c actions =>
          let r := runClient services c steps
          (actions ++ r.1, r.2)
      | .abort | .fault _ => ([], false)

/-- What arrives in a step. -/
def ClientStep.arrived : ClientStep → Option Bytes
  | .update _ arrived => arrived
  | .call _ _ _ => none

/-- The call a step sends to the server. -/
def ClientStep.sends : ClientStep → Option MethodRef
  | .call _ m (.ok, _) => some m
  | _ => none

end Lwpb
