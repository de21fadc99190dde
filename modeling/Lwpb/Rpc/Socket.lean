/-
RPC over sockets: `rpc/socket_helper.c`, and the connections of
`rpc/socket_server.c`.

A frame on the wire is a pre-header of three 32-bit numbers in network
byte order (magic, header length, message length), a `Header` message of
`socket_protocol.proto`, and the request or response itself.

The header is written with the streaming encoder, into a local buffer of
128 bytes and without a look at its error codes, and read with the
decoder, whose field handler looks the service and the method up by name.

# The server

A connection is its receive buffer up to `conn->pos`. `handleConnection`
is one call of `handle_connection`, given what `recv` returned; buffers
are taken to be allocated, and `send` to transmit all of its bytes. The
user's `call_handler` is a parameter with a state of its own, and gives
the content of the response buffer.
-/
import Lwpb.Wire.Message

namespace Lwpb

open Memory Slice

-- ================================================================ services

/-- `struct lwpb_method_desc`. -/
structure MethodDesc where
  reqDesc : MsgRef
  resDesc : MsgRef
  name : Bytes
  deriving Repr, DecidableEq

/-- The string a `char *` points at. -/
def cstr (str : Bytes) : Bytes := str.takeWhile (· != 0)

/-- `struct lwpb_service_desc`. -/
structure ServiceDesc where
  methods : List MethodDesc
  name : Bytes
  deriving Repr, DecidableEq

/-- A pointer to a method descriptor:
`&service_list[service]->methods[method]`. -/
structure MethodRef where
  service : Nat
  method : Nat
  deriving Repr, DecidableEq

-- ============================================================== the header

/-- The schema of `socket_protocol.proto`. -/
def socketProtocol : Schema :=
  ⟨[⟨[⟨1, ⟨.required, .enum, 0⟩, none, "type"⟩,
    ⟨2, ⟨.optional, .string, 0⟩, none, "service"⟩,
    ⟨3, ⟨.optional, .string, 0⟩, none, "method"⟩]⟩]⟩

/-- `socket_protocol_Header`. -/
def headerDesc : MsgRef := 0

def headerType : FieldRef := ⟨headerDesc, 0⟩
def headerService : FieldRef := ⟨headerDesc, 1⟩
def headerMethod : FieldRef := ⟨headerDesc, 2⟩

/-- `SOCKET_PROTOCOL_REQUEST`. -/
def protocolRequest : Int32 := 0

/-- `SOCKET_PROTOCOL_RESPONSE`. -/
def protocolResponse : Int32 := 1

/-- `PROTOCOL_MAGIC`. -/
def protocolMagic : UInt32 := 0xdeadbeaf

/-- The four bytes of `htonl(n)`. -/
def htonl (n : UInt32) : Bytes := (leBytes 4 n.toNat).reverse

/-- `ntohl` of four bytes. -/
def ntohl (bs : Bytes) : UInt32 := UInt32.ofNat (le bs.reverse)

/-- `sizeof(struct pre_header)`. -/
def preHeaderSize : Nat := 12

/-- `struct pre_header`, filled in. -/
def preHeader (headerLen msgLen : Nat) : Bytes :=
  htonl protocolMagic ++ htonl (UInt32.ofNat headerLen)
    ++ htonl (UInt32.ofNat msgLen)

-- ================================================================= sending

/-- The uninitialised locals of a call: an encoder and what its setters
leave unset, and the decoder's `wire_value`. -/
structure Locals where
  encoder : Enc
  scratch : Act → Scratch
  wireValue : UInt64

/-- A header, encoded: every call is made, whatever the one before
returned. `none` is a failed assertion. -/
def encodeHeader (l : Locals) (acts : List Act) : Option Bytes :=
  (runActs socketProtocol (encoderStart l.encoder headerDesc 0 128)
    (acts.map fun a => (l.scratch a, a))).2.map
      fun t => read t.mem 0 (encoderFinish t)

/-- A frame with this header and message. -/
def frameBytes (header msg : Bytes) : Bytes :=
  preHeader header.length msg.length ++ header ++ msg

/-- `send_request`, for a method and its service by name: the bytes
sent. -/
def sendRequest (l : Locals) (service method req : Bytes) : Option Bytes :=
  (encodeHeader l [.add headerType (.enum protocolRequest),
    .add headerService (.string service),
    .add headerMethod (.string method)]).map (frameBytes · req)

/-- `send_response`: the bytes sent. -/
def sendResponse (l : Locals) (res : Bytes) : Option Bytes :=
  (encodeHeader l [.add headerType (.enum protocolResponse)]).map
    (frameBytes · res)

-- ================================================================= parsing

/-- `struct protocol_header_info`. -/
structure HeaderInfo where
  msgType : Int32
  serviceDesc : Option Nat
  methodDesc : Option MethodRef
  headerLen : Nat
  msgLen : Nat
  deriving Repr, DecidableEq

/-- `strncmp(a, b, n) == 0`, where a NUL stands behind `b`. -/
def strncmpEq : (n : Nat) → (a b : Bytes) → Bool
  | 0, _, _ => true
  | n + 1, a, b =>
      if a.headD 0 ≠ b.headD 0 then false
      else if a.headD 0 = 0 then true
      else strncmpEq n a.tail b.tail

/-- The test of a reported string against a name. -/
def isName (data : Bytes) (s : Span) (name : Bytes) : Outcome Bool :=
  if s.len ≠ strlen name then .ok false
  else if s.len = 0 then .ok true
  else
    match s.data with
    | none => .fault .pointer
    | some _ => .ok (strncmpEq s.len (spanBytes data s) name)

/-- The first of the names that is the reported string, by index. -/
def findName (data : Bytes) (s : Span) :
    (i : Nat) → List Bytes → Outcome (Option Nat)
  | _, [] => .ok none
  | i, name :: names => do
      if ← isName data s name then .ok (some i)
      else findName data s (i + 1) names

/-- The name of the service is looked up in the list. -/
def lookupService (services : List ServiceDesc) (data : Bytes) (s : Span)
    (info : HeaderInfo) : Outcome HeaderInfo := do
  match ← findName data s 0 (services.map (·.name)) with
  | none => .ok info
  | some i => .ok { info with serviceDesc := some i }

/-- The name of the method is looked up in the service, if that is
known. -/
def lookupMethod (services : List ServiceDesc) (data : Bytes) (s : Span)
    (info : HeaderInfo) : Outcome HeaderInfo := do
  match info.serviceDesc with
  | none => .ok info
  | some i =>
      let service := services.getD i ⟨[], []⟩
      match ← findName data s 0 (service.methods.map (·.name)) with
      | none => .ok info
      | some j => .ok { info with methodDesc := some ⟨i, j⟩ }

/-- `parse_request_field_handler`. -/
def parseRequestFieldHandler (services : List ServiceDesc) (data : Bytes)
    (info : HeaderInfo) : Event Span → Outcome HeaderInfo
  | .field m f (some v) _ =>
      if m ≠ headerDesc then .ok info
      else
        match v with
        | .enum type =>
            .ok (if f = headerType then { info with msgType := type }
              else info)
        | .string s =>
            if f = headerService then lookupService services data s info
            else if f = headerMethod then lookupMethod services data s info
            else .ok info
        | _ => .ok info
  | _ => .ok info

/-- The handler, called with everything the decoder reports. -/
def handleFields (services : List ServiceDesc) (data : Bytes) :
    HeaderInfo → List (Event Span) → Outcome HeaderInfo
  | info, [] => .ok info
  | info, e :: events => do
      let info ← parseRequestFieldHandler services data info e
      handleFields services data info events

/-- What `parse_request` comes to; every code but `PARSE_ERR_OK` is an
`err`. -/
inductive Parsed where
  | ok (info : HeaderInfo)
  | err
  | abort
  | fault (f : Fault)
  deriving Repr, DecidableEq

/-- `parse_request`. -/
def parseRequest (services : List ServiceDesc) (buf : Bytes)
    (wireValue : UInt64) : Parsed :=
  if buf.length < preHeaderSize then .err
  else if ntohl (buf.take 4) ≠ protocolMagic then .err
  else
    let len := (ntohl ((buf.drop 4).take 4)).toNat
    let headerLen := len + preHeaderSize
    let msgLen := (ntohl ((buf.drop 8).take 4)).toNat
    if buf.length < headerLen + msgLen then .err
    else
      let header := (buf.drop preHeaderSize).take len
      let (events, result) := decode socketProtocol headerDesc header wireValue
      match handleFields services header ⟨0, none, none, headerLen, msgLen⟩
        events with
      | .fault f => .fault f
      | .err _ => .err
      | .ok info =>
          match result with
          | .ok _ => .ok info
          | .err _ => .err
          | .abort => .abort
          | .fault f => .fault f

-- ============================================================== the server

/-- `struct lwpb_server`: the services and the user's handler, with the
state it works on. -/
structure Server (σ : Type) where
  services : List ServiceDesc
  callHandler : σ → MethodRef → (reqDesc : MsgRef) → (req : Bytes) →
    (resDesc : MsgRef) → σ × Bytes

/-- The descriptor a method pointer points at. -/
def Server.method {σ : Type} (server : Server σ) (m : MethodRef) :
    MethodDesc :=
  (server.services.getD m.service ⟨[], []⟩).methods.getD m.method ⟨0, 0, []⟩

/-- `struct lwpb_socket_server_conn`, of a connection: the bytes between
`conn->buf` and `conn->pos`, and the length of the buffer. -/
structure Conn where
  received : Bytes
  len : Nat
  connected : Bool
  deriving Repr, DecidableEq

/-- What the server does that is seen outside. -/
inductive Action where
  | call (method : MethodRef) (reqDesc : MsgRef) (req : Bytes)
      (resDesc : MsgRef)
  | response (bytes : Bytes)
  | close
  deriving Repr, DecidableEq

/-- What a call of `handle_connection` comes to. -/
inductive Handled (σ : Type) where
  | done (conn : Conn) (arg : σ) (actions : List Action)
  | abort
  | fault (f : Fault)

/-- `handle_connection`, where `recv` returns the bytes `chunk`. -/
def handleConnection {σ : Type} (server : Server σ) (l : Locals)
    (conn : Conn) (arg : σ) (chunk : Bytes) : Handled σ :=
  if chunk.length = 0 then
    .done { conn with connected := false } arg [.close]
  else
    let conn := { conn with received := conn.received ++ chunk }
    match parseRequest server.services conn.received l.wireValue with
    | .abort => .abort
    | .fault f => .fault f
    | .err => .done conn arg []
    | .ok info =>
        match info.methodDesc with
        -- `info.method_desc->req_desc`
        | none => .fault .nullDesc
        | some m =>
            let desc := server.method m
            let req := (conn.received.drop info.headerLen).take info.msgLen
            let (arg, res) :=
              server.callHandler arg m desc.reqDesc req desc.resDesc
            match sendResponse l res with
            | none => .abort
            | some bytes => .done conn arg
                [.call m desc.reqDesc req desc.resDesc, .response bytes]

/-- Successive calls of `handle_connection` while the connection is open.
What arrives for a call is a chunk; `recv` returns no more of it than it
is asked for. The actions, and whether every call returned. -/
def serve {σ : Type} (server : Server σ) :
    Conn → σ → List (Locals × Bytes) → List Action × Bool
  | _, _, [] => ([], true)
  | conn, arg, (l, chunk) :: rest =>
      if conn.connected then
        match handleConnection server l conn arg
            (chunk.take (conn.len - conn.received.length)) with
        | .done conn arg actions =>
            let r := serve server conn arg rest
            (actions ++ r.1, r.2)
        | .abort | .fault _ => ([], false)
      else ([], true)

end Lwpb
