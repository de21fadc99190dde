/-
What a call over sockets comes to.

The direct transport runs the handlers of a call one after the other, and
the socket transports are to do the same between two programs. For one call
over a fresh connection they do (`network_call_refines_direct`): whatever
the interleaving of the two programs, and however the streams between them
are cut, the handlers are run in the order of a direct call, once each, with
the same messages, until only the call of `done_handler` is missing.

`Exchange` is the invariant: what has arrived and what is under way make up
the frame of the request, and then the frame of the response, next to what
is still to be done. An update does some of it and takes a byte of what is
under way (`Exchange.serverUpdate`, `Exchange.clientUpdate`), so that enough
updates do all of it (`Exchange.completes`).
-/
import Lwpb.Rpc.Network
import Lwpb.Proofs.Rpc.Client
import Lwpb.Proofs.Rpc.Direct
import Lwpb.Proofs.Rpc.Sending

namespace Lwpb

variable {σ : Type} {server : Server σ} {services : List ServiceDesc}
  {net : Network σ}

-- ================================================================== frames

/-- The request that is sent for a method by name. -/
def Request.ofCall (m : MethodRef) (service method req : Bytes) : Request :=
  ⟨m, [.type, .service, .method],
    (requestHeader service method).wire socketProtocol, req⟩

/-- The request of a call names its method. -/
theorem Request.ofCall_found {m : MethodRef}
    {service method req : Bytes}
    (hnames : Names services (cstr service) (cstr method) m)
    (hfit : HeaderFits (requestHeader service method))
    (hreq : req.length < 2 ^ 32) :
    (Request.ofCall m service method req).Found services := by
  have hlen : (headerBytes (requestHeader service method)).length ≤ 128 :=
    hfit
  have hwf : ((requestHeader service method).wire socketProtocol).WellFormed
      socketProtocol typed headerDesc :=
    Tree.wellFormed (by decide) (by decide)
      ((requestHeader_conforms hfit).typed.mono
        fun _ _ => Value.Fits.ofType)
      (Nat.lt_of_le_of_lt hlen (by decide))
  refine ⟨⟨hwf, ⟨cstr service, cstr method,
    requestHeader_report service method, hnames⟩, ?_, ?_, hreq⟩,
    Tree.leading _ false, rfl⟩
  · have hall : ∀ f : HeaderField, f ∈ [HeaderField.type, .service, .method] :=
      fun f => by cases f <;> decide
    exact hall
  · exact Nat.lt_of_le_of_lt hlen (by decide)

/-- The frame that is sent for a response. -/
def responseFrame (res : Bytes) : Bytes :=
  frameBytes (headerBytes responseHeader) res

/-- A response has bytes. -/
theorem responseFrame_ne_nil (res : Bytes) : responseFrame res ≠ [] := by
  intro hnil
  have hlen := congrArg List.length hnil
  rw [responseFrame, frameBytes_length, List.length_nil] at hlen
  omega

/-- A response that is there is read, whatever stands behind it. -/
theorem responseFrame_parses {res buf : Bytes} (hres : res.length < 2 ^ 32)
    (hpre : responseFrame res <+: buf) (wireValue : UInt64) :
    ∃ info, parseRequest [] buf wireValue = .ok info ∧
      (buf.drop info.headerLen).take info.msgLen = res := by
  obtain ⟨tail, rfl⟩ := hpre
  have hframe : RoundTrips [] (responseFrame res) res protocolResponse none
      none := by
    refine frame_roundTrips responseHeader_conforms (by decide)
      (by unfold HeaderFits; decide) hres fun out hout headerLen msgLen => ?_
    rw [responseHeader_report] at hout
    obtain ⟨fields, hfields, heq⟩ := hout.header
    obtain ⟨rest, hrest, heq'⟩ := hfields.type
    rw [heq, heq', List.map_eq_nil_iff.mp hrest.resolves]
    rfl
  obtain ⟨info, hparse, -, -, -, hpayload, hlen⟩ :=
    hframe.parses tail wireValue
  refine ⟨info, hparse, ?_⟩
  rw [List.drop_append_of_le_length (by omega),
    List.take_append_of_le_length (by rw [List.length_drop]; omega)]
  exact hpayload

-- ================================================================= reading

/-- What `recv` returns, and what is left. -/
theorem recv_append (room n : Nat) (stream : Bytes) :
    recv room n stream ++ stream.drop (recv room n stream).length
      = stream := by
  have hpre : recv room n stream <+: stream :=
    (List.take_prefix ..).trans (List.take_prefix ..)
  conv => lhs; lhs; rw [List.prefix_iff_eq_take.mp hpre]
  exact List.take_append_drop _ stream

/-- With room, and something under way, `recv` returns something. -/
theorem recv_ne_nil {room n : Nat} {stream : Bytes} (hroom : 0 < room)
    (hstream : stream ≠ []) : recv room n stream ≠ [] := by
  have hpos := List.length_pos_iff.mpr hstream
  refine List.length_pos_iff.mp ?_
  rw [recv, List.length_take, List.length_take]
  omega

/-- A client receives no more than it has room for. -/
theorem recv_take (room n : Nat) (stream : Bytes) :
    (recv room n stream).take room = recv room n stream := by
  rw [recv, List.take_take, Nat.min_self]

variable {c : SocketClient} {l : Locals} {chunk res : Bytes}

/-- A response that is there is handed out. -/
theorem handleData_hands {m : MethodRef} (hlast : c.lastMethod = some m)
    (hres : res.length < 2 ^ 32) (hne : chunk ≠ [])
    (hpre : responseFrame res <+: c.received ++ chunk) :
    handleData services l c chunk
      = .done { c with received := c.received ++ chunk }
        [.response m (methodOf services m).resDesc res] := by
  obtain ⟨info, hparse, hpayload⟩ :=
    responseFrame_parses hres hpre l.wireValue
  unfold handleData
  rw [if_neg fun h => hne (List.length_eq_zero_iff.mp h)]
  simp only [hparse, hlast, hpayload]

/-- A part of one is kept. -/
theorem handleData_waits (hres : res.length < 2 ^ 32) (hne : chunk ≠ [])
    (hpre : c.received ++ chunk <+: responseFrame res)
    (hpart : c.received ++ chunk ≠ responseFrame res) :
    handleData services l c chunk
      = .done { c with received := c.received ++ chunk } [] := by
  have hlt : (c.received ++ chunk).length < (responseFrame res).length :=
    Nat.lt_of_le_of_ne hpre.length_le fun h => hpart (hpre.eq_of_length h)
  have hshort := @parseRequest_short [] _ _ _ [] (by decide) hres
    (by rw [List.append_nil]; exact hpre) hlt l.wireValue
  unfold handleData
  rw [if_neg fun h => hne (List.length_eq_zero_iff.mp h)]
  simp only [hshort]

-- ================================================================ one call

variable {r : Request} {arg arg' : σ} {m : MethodRef} {conn : Conn}

/-- The two ends of a connection over which `r` is sent for a call of `m`,
and answered with `res`. -/
structure Ends (r : Request) (m : MethodRef) (res : Bytes)
    (c : SocketClient) (conn : Conn) : Prop where
  client : c.connected = true
  server : conn.connected = true
  last : c.lastMethod = some m
  serverRoom : r.bytes.length ≤ conn.len
  clientRoom : (responseFrame res).length ≤ c.len

/-- What is done for a call behind the request. -/
def Server.exchange (server : Server σ) (services : List ServiceDesc)
    (r : Request) (m : MethodRef) (arg : σ) : List NetAction :=
  [.server (server.callFor r),
    .server (.response (responseFrame (server.answer arg r).2)),
    .client (.response m (methodOf services m).resDesc
      (server.answer arg r).2)]

/-- A call under way, and what is still to be done for it. -/
inductive Exchange (server : Server σ) (services : List ServiceDesc)
    (r : Request) (m : MethodRef) (arg : σ) :
    Network σ → List NetAction → Prop where
  | waiting {c : SocketClient} {conn : Conn} {requests : Bytes} :
      Ends r m (server.answer arg r).2 c conn →
      conn.received ++ requests = r.bytes → requests ≠ [] →
      c.received = [] →
      Exchange server services r m arg
        ⟨some c, some (conn, arg), requests, []⟩
        (server.exchange services r m arg)
  | answering {c : SocketClient} {conn : Conn} {responses : Bytes} :
      Ends r m (server.answer arg r).2 c conn → conn.received = r.bytes →
      c.received ++ responses = responseFrame (server.answer arg r).2 →
      responses ≠ [] →
      Exchange server services r m arg
        ⟨some c, some (conn, (server.answer arg r).1), [], responses⟩
        [.client (.response m (methodOf services m).resDesc
          (server.answer arg r).2)]
  | finished {c : SocketClient} {conn : Conn} :
      Ends r m (server.answer arg r).2 c conn → conn.received = r.bytes →
      c.received = responseFrame (server.answer arg r).2 →
      Exchange server services r m arg
        ⟨some c, some (conn, (server.answer arg r).1), [], []⟩ []

/-- How often the server reads in a step. -/
def NetStep.serverReads : NetStep → Nat
  | .serverUpdate _ _ => 1
  | _ => 0

/-- How often the client reads in a step. -/
def NetStep.clientReads : NetStep → Nat
  | .clientUpdate _ _ => 1
  | _ => 0

/-- What comes of a call under way when the server reads `reads` times and
the client `reads'` times: some of what is to be done is done, and as long
as there is something under way every read takes a byte of it. -/
structure Exchange.Does (server : Server σ) (services : List ServiceDesc)
    (r : Request) (m : MethodRef) (arg : σ) (net : Network σ)
    (todo : List NetAction) (reads reads' : Nat)
    (result : Network σ × List NetAction) : Prop where
  rest : ∃ todo', todo = result.2 ++ todo' ∧
    Exchange server services r m arg result.1 todo'
  requests : result.1.requests.length ≤ net.requests.length - reads
  responses : net.requests = [] →
    result.1.responses.length ≤ net.responses.length - reads'

/-- With nothing to be read `select` times out. -/
theorem step_serverUpdate_idle {n : Nat} (h : net.requests = [])
    (hconn : net.clientConnected = true) :
    net.step server services (.serverUpdate l n) = (net, []) := by
  unfold Network.step
  cases hserver : net.server with
  | none => rfl
  | some s =>
      obtain ⟨conn, arg⟩ := s
      simp [h, hconn]

/-- With nothing on the way, an update of the client does nothing. -/
theorem step_clientUpdate_idle {n : Nat} (h : net.responses = [])
    (hconn : net.serverConnected = true) :
    net.step server services (.clientUpdate l n) = (net, []) := by
  unfold Network.step
  cases hclient : net.client with
  | none => rfl
  | some c => simp [h, hconn]

/-- The server reads a part of the request, or the rest of it. -/
theorem Exchange.serverUpdate {todo : List NetAction}
    (hr : r.Found server.services)
    (h : Exchange server services r m arg net todo) (l : Locals) (n : Nat) :
    Exchange.Does server services r m arg net todo 1 0
      (net.step server services (.serverUpdate l n)) := by
  cases h with
  | @waiting c conn requests hends hpart hne hfresh =>
      set chunk := recv (conn.len - conn.received.length) n requests
        with hchunk
      have hroom : 0 < conn.len - conn.received.length := by
        have hlen := congrArg List.length hpart
        have hpos := List.length_pos_iff.mpr hne
        have hfits := hends.serverRoom
        rw [List.length_append] at hlen
        omega
      have hchunkNe : chunk ≠ [] := recv_ne_nil hroom hne
      have hsplit : chunk ++ requests.drop chunk.length = requests :=
        recv_append ..
      have hstep : (⟨some c, some (conn, arg), requests, []⟩ :
          Network σ).step server services (.serverUpdate l n)
            = (⟨some c, some (conn, arg), requests, []⟩ :
              Network σ).serverRet chunk.length
                (handleConnection server l conn arg chunk) := by
        simp [Network.step, hends.server, hne, ← hchunk]
      have hread : (requests.drop chunk.length).length
          ≤ requests.length - 1 := by
        have hpos := List.length_pos_iff.mpr hchunkNe
        rw [List.length_drop]
        omega
      rw [hstep]
      by_cases hrest : requests.drop chunk.length = []
      · have hall : conn.received ++ chunk = r.bytes := by
          rw [hrest, List.append_nil] at hsplit
          rw [hsplit, hpart]
        rw [handleConnection_answers hr hchunkNe
          (by rw [hall])
          (sendResponse_fits l _)]
        have hsent : [] ++ [server.callFor r, .response (responseFrame
            (server.answer arg r).2)].flatMap Action.sentBytes
              = responseFrame (server.answer arg r).2 := by
          simp [Server.callFor, Action.sentBytes]
        refine ⟨⟨_, rfl, ?_⟩, ?_, fun h => absurd h hne⟩
        · simp only [Network.serverRet, hrest, hall]
          refine .answering ⟨hends.client, hends.server, hends.last,
            hends.serverRoom, hends.clientRoom⟩ rfl ?_ ?_
          · rw [hfresh]
            exact hsent
          · exact hsent.trans_ne (responseFrame_ne_nil _)
        · exact hread
      · have hmore : (conn.received ++ chunk) ++ requests.drop chunk.length
            = r.bytes := by
          rw [List.append_assoc, hsplit, hpart]
        have hlt : (conn.received ++ chunk).length < r.bytes.length := by
          have hlen := congrArg List.length hmore
          have hpos := List.length_pos_iff.mpr hrest
          rw [List.length_append] at hlen
          omega
        rw [@handleConnection_short σ server l conn arg chunk r []
          hr.toWellFormed
          hchunkNe (by rw [List.append_nil, ← hmore]; exact List.prefix_append ..)
          hlt]
        exact ⟨⟨_, rfl, .waiting ⟨hends.client, hends.server, hends.last,
          hends.serverRoom, hends.clientRoom⟩ hmore hrest hfresh⟩, hread,
          fun h => absurd h hne⟩
  | answering hends hdone hpart hne =>
      rw [step_serverUpdate_idle rfl (by exact hends.client)]
      exact ⟨⟨_, rfl, .answering hends hdone hpart hne⟩, Nat.zero_le _,
        fun _ => Nat.le_refl _⟩
  | finished hends hdone hall =>
      rw [step_serverUpdate_idle rfl (by exact hends.client)]
      exact ⟨⟨_, rfl, .finished hends hdone hall⟩, Nat.zero_le _,
        fun _ => Nat.zero_le _⟩

/-- The client reads a part of the response, or the rest of it. -/
theorem Exchange.clientUpdate {todo : List NetAction}
    (hres : (server.answer arg r).2.length < 2 ^ 32)
    (h : Exchange server services r m arg net todo) (l : Locals) (n : Nat) :
    Exchange.Does server services r m arg net todo 0 1
      (net.step server services (.clientUpdate l n)) := by
  cases h with
  | waiting hends hpart hne hfresh =>
      rw [step_clientUpdate_idle rfl (by exact hends.server)]
      exact ⟨⟨_, rfl, .waiting hends hpart hne hfresh⟩, Nat.le_refl _,
        fun _ => Nat.zero_le _⟩
  | @answering c conn responses hends hdone hpart hne =>
      set chunk := recv (c.len - c.received.length) n responses with hchunk
      have hroom : 0 < c.len - c.received.length := by
        have hlen := congrArg List.length hpart
        have hpos := List.length_pos_iff.mpr hne
        have hfits := hends.clientRoom
        rw [List.length_append] at hlen
        omega
      have hchunkNe : chunk ≠ [] := recv_ne_nil hroom hne
      have hsplit : chunk ++ responses.drop chunk.length = responses :=
        recv_append ..
      have hstep : (⟨some c, some (conn, (server.answer arg r).1), [],
          responses⟩ : Network σ).step server services (.clientUpdate l n)
            = (⟨some c, some (conn, (server.answer arg r).1), [],
                responses⟩ : Network σ).clientRet chunk.length
                  (handleData services l c chunk) := by
        have hdata : Lwpb.clientUpdate services l c (some chunk)
            = handleData services l c chunk := by
          rw [clientUpdate_data hends.client, hchunk, recv_take]
        simp [Network.step, hends.client, hne, ← hchunk, hdata]
      have hread : (responses.drop chunk.length).length
          ≤ responses.length - 1 := by
        have hpos := List.length_pos_iff.mpr hchunkNe
        rw [List.length_drop]
        omega
      rw [hstep]
      by_cases hrest : responses.drop chunk.length = []
      · have hall : c.received ++ chunk
            = responseFrame (server.answer arg r).2 := by
          rw [hrest, List.append_nil] at hsplit
          rw [hsplit, hpart]
        rw [handleData_hands hends.last hres hchunkNe (by rw [hall])]
        refine ⟨⟨_, rfl, ?_⟩, Nat.le_refl _, fun _ => hread⟩
        simp only [Network.clientRet, hrest, hall]
        exact .finished ⟨hends.client, hends.server, hends.last,
          hends.serverRoom, hends.clientRoom⟩ hdone rfl
      · have hmore : (c.received ++ chunk) ++ responses.drop chunk.length
            = responseFrame (server.answer arg r).2 := by
          rw [List.append_assoc, hsplit, hpart]
        rw [handleData_waits hres hchunkNe
          (by rw [← hmore]; exact List.prefix_append ..)
          (by
            rw [← hmore]
            exact fun h => hrest (List.self_eq_append_right.mp h))]
        exact ⟨⟨_, rfl, .answering ⟨hends.client, hends.server, hends.last,
          hends.serverRoom, hends.clientRoom⟩ hdone hmore hrest⟩,
          Nat.le_refl _, fun _ => hread⟩
  | finished hends hdone hall =>
      rw [step_clientUpdate_idle rfl (by exact hends.server)]
      exact ⟨⟨_, rfl, .finished hends hdone hall⟩, Nat.zero_le _,
        fun _ => Nat.zero_le _⟩

-- ============================================================ a whole call

/-- How often the server reads. -/
def serverReads (steps : List NetStep) : Nat :=
  (steps.map NetStep.serverReads).sum

/-- How often the client reads. -/
def clientReads (steps : List NetStep) : Nat :=
  (steps.map NetStep.clientReads).sum

/-- The bytes the server reads, step by step. -/
theorem serverReads_cons (step : NetStep) (steps : List NetStep) :
    serverReads (step :: steps) = step.serverReads + serverReads steps :=
  List.sum_cons

/-- And those the client reads. -/
theorem clientReads_cons (step : NetStep) (steps : List NetStep) :
    clientReads (step :: steps) = step.clientReads + clientReads steps :=
  List.sum_cons

/-- The step is no call. -/
def NetStep.isUpdate : NetStep → Bool
  | .call _ _ _ => false
  | _ => true

/-- A run of updates does some of what is to be done, in order. -/
theorem Exchange.run {todo : List NetAction} {steps : List NetStep}
    (hr : r.Found server.services)
    (hres : (server.answer arg r).2.length < 2 ^ 32)
    (h : Exchange server services r m arg net todo)
    (hsteps : ∀ s ∈ steps, s.isUpdate = true) :
    Exchange.Does server services r m arg net todo (serverReads steps)
      (clientReads steps) (net.run server services steps) := by
  induction steps generalizing net todo with
  | nil => exact ⟨⟨todo, rfl, h⟩, Nat.le_refl _, fun _ => Nat.le_refl _⟩
  | cons step steps ih =>
      have hone : Exchange.Does server services r m arg net todo
          step.serverReads step.clientReads
          (net.step server services step) := by
        cases step with
        | call l m handled =>
            exact absurd (hsteps _ List.mem_cons_self) Bool.false_ne_true
        | serverUpdate l n => exact h.serverUpdate hr l n
        | clientUpdate l n => exact h.clientUpdate hres l n
      obtain ⟨⟨todo₁, rfl, h₁⟩, hrequests₁, hresponses₁⟩ := hone
      obtain ⟨⟨todo₂, rfl, h₂⟩, hrequests₂, hresponses₂⟩ :=
        ih h₁ fun s hs => hsteps s (List.mem_cons_of_mem _ hs)
      refine ⟨⟨todo₂, (List.append_assoc ..).symm, h₂⟩, ?_, fun hnone => ?_⟩
      · refine hrequests₂.trans ?_
        rw [serverReads_cons, Nat.sub_add_eq]
        exact Nat.sub_le_sub_right hrequests₁ _
      · have hnone₁ : (net.step server services step).1.requests = [] := by
          rw [hnone] at hrequests₁
          exact List.length_eq_zero_iff.mp
            (Nat.le_zero.mp (hrequests₁.trans (Nat.sub_le ..)))
        refine (hresponses₂ hnone₁).trans ?_
        rw [clientReads_cons, Nat.sub_add_eq]
        exact Nat.sub_le_sub_right (hresponses₁ hnone) _

/-- The steps behind other steps. -/
theorem Network.run_append (steps steps' : List NetStep) :
    net.run server services (steps ++ steps')
      = let result := net.run server services steps
        let result' := result.1.run server services steps'
        (result'.1, result.2 ++ result'.2) := by
  induction steps generalizing net with
  | nil => rfl
  | cons step steps ih =>
      simp only [List.cons_append, Network.run, ih, List.append_assoc]

/-- Nothing is left to be done when nothing is under way. -/
theorem Exchange.done_of_drained {todo : List NetAction}
    (h : Exchange server services r m arg net todo)
    (hrequests : net.requests = []) (hresponses : net.responses = []) :
    todo = [] := by
  cases h with
  | waiting _ _ hne _ => exact absurd hrequests hne
  | answering _ _ _ hne => exact absurd hresponses hne
  | finished => rfl

/-- What is on the way back is part of the response. -/
theorem Exchange.responses_le {todo : List NetAction}
    (h : Exchange server services r m arg net todo) :
    net.responses.length ≤ (responseFrame (server.answer arg r).2).length := by
  cases h with
  | waiting => exact Nat.zero_le _
  | answering _ _ hpart _ =>
      rw [← hpart, List.length_append]
      exact Nat.le_add_left _ _
  | finished => exact Nat.zero_le _

/-- With enough reads of the server, and enough of the client behind them,
everything is done. -/
theorem Exchange.completes {todo : List NetAction} {a b : List NetStep}
    (hr : r.Found server.services)
    (hres : (server.answer arg r).2.length < 2 ^ 32)
    (h : Exchange server services r m arg net todo)
    (hsteps : ∀ s ∈ a ++ b, s.isUpdate = true)
    (hserver : net.requests.length ≤ serverReads a)
    (hclient : (responseFrame (server.answer arg r).2).length
      ≤ clientReads b) :
    (net.run server services (a ++ b)).2 = todo ∧
      Exchange server services r m arg
        (net.run server services (a ++ b)).1 [] := by
  obtain ⟨⟨todo₁, rfl, h₁⟩, hrequests₁, -⟩ := h.run hr hres
    fun s hs => hsteps s (List.mem_append_left b hs)
  obtain ⟨⟨todo₂, rfl, h₂⟩, hrequests₂, hresponses₂⟩ := h₁.run hr hres
    fun s hs => hsteps s (List.mem_append_right a hs)
  have hnone₁ : (net.run server services a).1.requests = [] :=
    List.length_eq_zero_iff.mp (by omega)
  have hnone₂ := List.length_eq_zero_iff.mp (Nat.le_zero.mp
    (hrequests₂.trans (by rw [hnone₁]; exact Nat.sub_le ..)))
  have hleft := h₁.responses_le
  have hnone : ((net.run server services a).1.run server services b).1.responses
      = [] :=
    List.length_eq_zero_iff.mp (by have h := hresponses₂ hnone₁; omega)
  obtain rfl := h₂.done_of_drained hnone₂ hnone
  rw [Network.run_append]
  exact ⟨by rw [List.append_nil], h₂⟩

-- ================================================================ refinement

/-- The handler call of an action. -/
def NetAction.handlerCall : NetAction → Option HandlerCall
  | .client (.request m d) => some (.request m d)
  | .client (.response m d res) => some (.response m d res)
  | .client (.done m result) => some (.done m result)
  | .client (.sent _ _) => none
  | .server (.call m d req d') => some (.call m d req d')
  | .server (.response _) => none
  | .server .close => none

/-- A direct call whose handlers succeed. -/
structure DirectSys.Succeeds (sys : DirectSys) (req res : Bytes) : Prop where
  reqBuf : sys.reqBuf ≠ none
  resBuf : sys.resBuf ≠ none
  request : sys.request = (.ok, req)
  called : sys.called = (.ok, res)

/-- The handler calls of the direct transport, where everything succeeds. -/
theorem DirectSys.Succeeds.handlerCalls_eq {sys : DirectSys}
    {req res : Bytes} (h : sys.Succeeds req res)
    (services : List ServiceDesc) (m : MethodRef) :
    handlerCalls (directTransportCall services true m sys ⟨[], [], [], []⟩).1
      = [.request m (methodOf services m).reqDesc,
        .call m (methodOf services m).reqDesc req
          (methodOf services m).resDesc,
        .response m (methodOf services m).resDesc res, .done m .ok] := by
  obtain ⟨hreqBuf, hresBuf, hrequest, hcalled⟩ := h
  obtain ⟨reqBuf, hreqBuf⟩ := Option.ne_none_iff_exists'.mp hreqBuf
  obtain ⟨resBuf, hresBuf⟩ := Option.ne_none_iff_exists'.mp hresBuf
  simp [directTransportCall, directExchange, hreqBuf, hresBuf, hrequest,
    hcalled]

/-- A call over sockets does what the call does directly, up to the end
that nobody is told of: in order at any time, all of it when nothing is
under way, and that is so after `F` reads of the server and `R` reads of
the client behind them. -/
structure CarriedOut (direct : List HandlerCall) (m : MethodRef) (F R : Nat)
    (steps : List NetStep) (run : Network σ × List NetAction) : Prop where
  inOrder : run.2.filterMap NetAction.handlerCall <+: direct
  drained : run.1.requests = [] → run.1.responses = [] →
    run.2.filterMap NetAction.handlerCall ++ [.done m .ok] = direct
  delivered : ∀ a b, steps = a ++ b → F ≤ serverReads a →
    R ≤ clientReads b →
    run.2.filterMap NetAction.handlerCall ++ [.done m .ok] = direct
  connected : run.1.clientConnected = true ∧ run.1.serverConnected = true

/-- Both ends stay connected. -/
theorem Exchange.connected {todo : List NetAction}
    (h : Exchange server services r m arg net todo) :
    net.clientConnected = true ∧ net.serverConnected = true := by
  cases h with
  | waiting hends => exact ⟨hends.client, hends.server⟩
  | answering hends => exact ⟨hends.client, hends.server⟩
  | finished hends => exact ⟨hends.client, hends.server⟩

/-- Over a fresh connection whose buffers have room for it, a call is
carried out like a direct one, whatever the interleaving and however the
streams are read. -/
theorem network_call_refines_direct (server : Server σ) (arg : σ)
    (clientLen serverLen : Nat) (l : Locals) (sys : DirectSys)
    (steps : List NetStep) {i j : Nat} {svc : ServiceDesc}
    {meth : MethodDesc} {req : Bytes} {r : Request}
    (hsvc : server.services[i]? = some svc)
    (hmeth : svc.methods[j]? = some meth)
    (hservices : (server.services.map fun s => cstr s.name).Nodup)
    (hmethods : (svc.methods.map fun d => cstr d.name).Nodup)
    (hfit : HeaderFits (requestHeader svc.name meth.name))
    (hreq : req.length < 2 ^ 32)
    (hr : r = Request.ofCall ⟨i, j⟩ svc.name meth.name req)
    (hres : (server.answer arg r).2.length < 2 ^ 32)
    (hserverLen : r.bytes.length ≤ serverLen)
    (hclientLen : (responseFrame (server.answer arg r).2).length ≤ clientLen)
    (hsys : sys.Succeeds req (server.answer arg r).2)
    (hsteps : ∀ s ∈ steps, s.isUpdate = true) :
    CarriedOut
      (handlerCalls (directTransportCall server.services true ⟨i, j⟩ sys
        ⟨[], [], [], []⟩).1) ⟨i, j⟩ r.bytes.length
      (responseFrame (server.answer arg r).2).length steps
      ((Network.start clientLen serverLen arg).run server server.services
        (.call l ⟨i, j⟩ (.ok, req) :: steps)) := by
  have hfound : r.Found server.services := by
    rw [hr]
    exact Request.ofCall_found
      (names_of_distinct hsvc hmeth hservices hmethods) hfit hreq
  have hbytes : r.bytes
      = frameBytes (headerBytes (requestHeader svc.name meth.name)) req := by
    rw [hr]
    rfl
  have hservice : serviceOf server.services ⟨i, j⟩ = svc := by
    simp [serviceOf, hsvc]
  have hmethod : methodOf server.services ⟨i, j⟩ = meth := by
    simp [methodOf, hservice, hmeth]
  have hcall : transportCall server.services l ⟨true, [], clientLen, none⟩
      ⟨i, j⟩ (.ok, req)
        = .done ⟨true, [], clientLen, some ⟨i, j⟩⟩
          [.request ⟨i, j⟩ meth.reqDesc, .sent ⟨i, j⟩ r.bytes] := by
    simp [transportCall, hservice, hmethod, sendRequest_fits l hfit, hbytes]
  set net₁ : Network σ := ⟨some ⟨true, [], clientLen, some ⟨i, j⟩⟩,
    some (⟨[], serverLen, true⟩, arg), r.bytes, []⟩ with hnet₁
  have hstart : (Network.start clientLen serverLen arg).step server
      server.services (.call l ⟨i, j⟩ (.ok, req))
        = (net₁, [.client (.request ⟨i, j⟩ meth.reqDesc),
          .client (.sent ⟨i, j⟩ r.bytes)]) := by
    simp [Network.start, Network.step, hcall, Network.clientRet,
      ClientAction.sentBytes, hnet₁]
  have hne : r.bytes ≠ [] := by
    intro hnil
    have hlen := congrArg List.length hnil
    rw [Request.bytes, frameBytes_length, List.length_nil] at hlen
    omega
  have hexchange : Exchange server server.services r ⟨i, j⟩ arg net₁
      (server.exchange server.services r ⟨i, j⟩ arg) :=
    .waiting ⟨rfl, rfl, rfl, hserverLen, hclientLen⟩ rfl hne rfl
  have hdirect : handlerCalls (directTransportCall server.services true
      ⟨i, j⟩ sys ⟨[], [], [], []⟩).1
        = .request ⟨i, j⟩ meth.reqDesc
          :: (server.exchange server.services r ⟨i, j⟩ arg).filterMap
            NetAction.handlerCall ++ [.done ⟨i, j⟩ .ok] := by
    have hmethod' : server.method ⟨i, j⟩ = meth := hmethod
    have hr' : r.method = ⟨i, j⟩ ∧ r.payload = req := by
      rw [hr]
      exact ⟨rfl, rfl⟩
    rw [hsys.handlerCalls_eq, hmethod]
    simp only [Server.exchange, Server.callFor, hr', hmethod, hmethod']
    rfl
  rw [Network.run, hstart, hdirect]
  set result := net₁.run server server.services steps with hresult
  have hlog : ([NetAction.client (.request ⟨i, j⟩ meth.reqDesc),
      .client (.sent ⟨i, j⟩ r.bytes)] ++ result.2).filterMap
        NetAction.handlerCall
      = .request ⟨i, j⟩ meth.reqDesc
        :: result.2.filterMap NetAction.handlerCall := rfl
  obtain ⟨⟨todo, htodo, hafter⟩, -, -⟩ :=
    hexchange.run hfound hres hsteps
  rw [← hresult] at htodo hafter
  refine ⟨?_, fun hrequests hresponses => ?_, fun a b hab hF hR => ?_,
    hafter.connected⟩
  · show List.filterMap _ _ <+: _
    rw [hlog, htodo, List.filterMap_append, List.cons_append,
      List.append_assoc]
    exact List.cons_prefix_cons.mpr ⟨rfl, List.prefix_append ..⟩
  · have hdone := hafter.done_of_drained hrequests hresponses
    rw [hlog, htodo, hdone, List.append_nil]
  · have hdone := (hexchange.completes hfound hres
      (by rw [← hab]; exact hsteps) hF hR).1
    rw [← hab, ← hresult] at hdone
    rw [hlog, hdone]

/-- The direct call of the method `p`. -/
def pingSys : DirectSys :=
  ⟨some (0, 1024), some (1, 1024), (.ok, [1]), (.ok, []), .ok⟩

/-- The same over sockets, read in two parts on either side. -/
def pingUpdates : List NetStep :=
  [.serverUpdate freshLocals 6, .clientUpdate freshLocals 0,
    .serverUpdate freshLocals 63, .clientUpdate freshLocals 6,
    .clientUpdate freshLocals 63]

/-- Of one call, in two updates of each side. -/
theorem network_call_refines_direct_ping :
    CarriedOut
      (handlerCalls (directTransportCall pingServer.services true ⟨0, 0⟩
        pingSys ⟨[], [], [], []⟩).1) ⟨0, 0⟩
      (Request.ofCall ⟨0, 0⟩ [115] [112] [1]).bytes.length
      (responseFrame []).length pingUpdates
      ((Network.start 1024 1024 ()).run pingServer pingServer.services
        (.call freshLocals ⟨0, 0⟩ (.ok, [1]) :: pingUpdates)) := by
  refine network_call_refines_direct pingServer () 1024 1024 freshLocals
    pingSys pingUpdates rfl rfl (by decide) (by decide)
    (headerFits_iff.mpr (by decide)) (by decide) rfl (by decide) (by decide)
    (by decide) ⟨nofun, nofun, rfl, rfl⟩ (by decide)

end Lwpb
