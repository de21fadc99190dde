/-
What a client that calls more than once is told.

Neither program takes a frame out of its receive buffer. So whatever is
called later, and however the two programs and the streams between them
are scheduled, the server runs its handler for the first request only, and
the client is handed the answer to that request only, if it is handed
anything (`network_replays_first`).

`Replay` is the invariant, of the whole network: the request comes first
in what the server has read or will read, and its answer comes first in
what the client has read or will read. Every step keeps it, whoever makes
it (`Replay.Keeps`), and what a step does under it is nothing, or the
first request or its answer once more; so the order of the steps does not
matter.
-/
import Lwpb.Proofs.Rpc.Network

namespace Lwpb

variable {σ : Type} {server : Server σ} {services : List ServiceDesc}
  {net : Network σ} {r : Request} {arg : σ} {l : Locals}

-- ============================================================ the property

/-- Handlers are run for the first request and its answer only. -/
def NetAction.Replays (server : Server σ) (r : Request) (arg : σ) :
    NetAction → Prop
  | .server (.call m _ req _) => m = r.method ∧ req = r.payload
  | .client (.response _ _ res) => res = (server.answer arg r).2
  | _ => True

/-- The request comes first in what the server has read or is to read, and
its answer in what the client has read or is to read, if anything does. -/
structure Replay (server : Server σ) (r : Request) (arg : σ)
    (net : Network σ) : Prop where
  connected : ∀ c, net.client = some c → c.connected = true
  request : ∀ conn arg', net.server = some (conn, arg') →
    r.bytes <+: conn.received ++ net.requests
  response : ∀ c, net.client = some c →
    (c.received ++ net.responses = [] ∧
      ∀ conn arg', net.server = some (conn, arg') → arg' = arg) ∨
    responseFrame (server.answer arg r).2 <+: c.received ++ net.responses

/-- A step keeps that, and does nothing else. -/
def Replay.Keeps (server : Server σ) (r : Request) (arg : σ)
    (result : Network σ × List NetAction) : Prop :=
  Replay server r arg result.1 ∧ ∀ a ∈ result.2, a.Replays server r arg

-- =================================================================== steps

theorem Replay.idle (h : Replay server r arg net) :
    Replay.Keeps server r arg (net, []) :=
  ⟨h, fun _ ha => absurd ha List.not_mem_nil⟩

/-- The server does nothing, or reads what comes next. -/
theorem serverUpdate_cases (server : Server σ) (services : List ServiceDesc)
    (net : Network σ) (l : Locals) (n : Nat) :
    net.step server services (.serverUpdate l n) = (net, []) ∨
    ∃ conn arg chunk rest, net.server = some (conn, arg) ∧
      net.requests = chunk ++ rest ∧
      net.step server services (.serverUpdate l n)
        = net.serverRet chunk.length
          (handleConnection server l conn arg chunk) := by
  unfold Network.step
  cases hserver : net.server with
  | none => exact .inl rfl
  | some s =>
      obtain ⟨conn, arg⟩ := s
      dsimp only
      by_cases hopen : conn.connected = true
      · rw [hopen, if_neg (by decide)]
        by_cases hidle : (net.requests.isEmpty && net.clientConnected) = true
        · rw [if_pos hidle]
          exact .inl rfl
        · rw [if_neg hidle]
          exact .inr ⟨conn, arg, _, _, rfl, (recv_append ..).symm, rfl⟩
      · rw [if_pos (by simpa using hopen)]
        exact .inl rfl

/-- The client does nothing, or reads what comes next. -/
theorem clientUpdate_cases (server : Server σ) (services : List ServiceDesc)
    (net : Network σ) (l : Locals) (n : Nat) :
    net.step server services (.clientUpdate l n) = (net, []) ∨
    ∃ c chunk rest, net.client = some c ∧ net.responses = chunk ++ rest ∧
      net.step server services (.clientUpdate l n)
        = net.clientRet chunk.length (handleData services l c chunk) := by
  unfold Network.step
  cases hclient : net.client with
  | none => exact .inl rfl
  | some c =>
      dsimp only
      by_cases hopen : c.connected = true
      · rw [hopen, if_neg (by decide)]
        by_cases hidle : (net.responses.isEmpty && net.serverConnected) = true
        · rw [if_pos hidle]
          exact .inl rfl
        · rw [if_neg hidle, clientUpdate_data hopen, recv_take]
          exact .inr ⟨c, _, _, rfl, (recv_append ..).symm, rfl⟩
      · rw [if_pos (by simpa using hopen)]
        exact .inl rfl

/-- The server has read something, and does nothing. -/
theorem Replay.reads {conn conn' : Conn} {arg' : σ} {requests : Bytes}
    (h : Replay server r arg net) (hserver : net.server = some (conn, arg'))
    (hpre : r.bytes <+: conn'.received ++ requests) :
    Replay server r arg
      { net with server := some (conn', arg'), requests := requests } := by
  refine ⟨h.connected, ?_, fun c hc => ?_⟩
  · intro conn₁ arg₁ heq
    obtain ⟨rfl, rfl⟩ := Prod.mk.inj (Option.some.inj heq)
    exact hpre
  · refine (h.response c hc).imp_left fun hnone => ⟨hnone.1, ?_⟩
    intro conn₁ arg₁ heq
    obtain ⟨rfl, rfl⟩ := Prod.mk.inj (Option.some.inj heq)
    exact hnone.2 conn arg' hserver

/-- The server has read the request, and answers it, for the first time or
again. -/
theorem Replay.answers {conn conn' : Conn} {arg' : σ} {requests : Bytes}
    (h : Replay server r arg net) (hserver : net.server = some (conn, arg'))
    (hpre : r.bytes <+: conn'.received ++ requests) :
    Replay server r arg
      { net with
          server := some (conn', (server.answer arg' r).1)
          requests := requests
          responses :=
            net.responses ++ responseFrame (server.answer arg' r).2 } := by
  refine ⟨h.connected, ?_, fun c hc => .inr ?_⟩
  · intro conn₁ arg₁ heq
    obtain ⟨rfl, rfl⟩ := Prod.mk.inj (Option.some.inj heq)
    exact hpre
  · show _ <+: c.received ++ (net.responses ++ _)
    rw [← List.append_assoc]
    rcases h.response c hc with ⟨hnone, harg⟩ | hthere
    · rw [hnone, harg conn arg' hserver]
      exact List.prefix_refl _
    · exact hthere.trans (List.prefix_append ..)

/-- The server reads. -/
theorem Replay.serverUpdate (hr : r.Found server.services)
    (h : Replay server r arg net) (l : Locals) (n : Nat) :
    Replay.Keeps server r arg
      (net.step server services (.serverUpdate l n)) := by
  rcases serverUpdate_cases server services net l n with
    hidle | ⟨conn, arg', chunk, rest, hserver, hrequests, hstep⟩
  · rw [hidle]
    exact h.idle
  have hfirst := h.request conn arg' hserver
  have hdrop : net.requests.drop chunk.length = rest := by
    rw [hrequests, List.drop_left]
  rw [hstep]
  by_cases hchunk : chunk = []
  · -- `recv` returns 0, and the connection is closed
    subst hchunk
    refine ⟨?_, fun a ha => ?_⟩
    · show Replay server r arg { net with
        server := some ({ conn with connected := false }, arg')
        responses := net.responses ++ [] }
      rw [List.append_nil]
      exact h.reads hserver hfirst
    · rw [List.mem_singleton.mp ha]
      trivial
  rw [hrequests, ← List.append_assoc] at hfirst
  by_cases hthere : r.bytes.length ≤ (conn.received ++ chunk).length
  · have hpre : r.bytes <+: conn.received ++ chunk :=
      List.prefix_of_prefix_length_le hfirst (List.prefix_append ..) hthere
    rw [handleConnection_answers hr hchunk hpre (sendResponse_fits l _)]
    refine ⟨?_, fun a ha => ?_⟩
    · have hsent : [server.callFor r, .response (responseFrame
          (server.answer arg' r).2)].flatMap Action.sentBytes
            = responseFrame (server.answer arg' r).2 := by
        simp [Server.callFor, Action.sentBytes]
      show Replay server r arg { net with
        server := some ({ conn with received := conn.received ++ chunk },
          (server.answer arg' r).1)
        requests := net.requests.drop chunk.length
        responses := net.responses ++ [server.callFor r, .response
          (responseFrame (server.answer arg' r).2)].flatMap
            Action.sentBytes }
      rw [hsent]
      exact h.answers hserver (hpre.trans (List.prefix_append ..))
    · obtain ⟨action, haction, rfl⟩ := List.mem_map.mp ha
      rcases List.mem_pair.mp haction with rfl | rfl
      · exact ⟨rfl, rfl⟩
      · trivial
  · obtain ⟨tail, htail⟩ := hfirst
    rw [@handleConnection_short σ server l conn arg' chunk r tail
      hr.toWellFormed hchunk (by rw [htail]; exact List.prefix_append ..)
      (Nat.not_le.mp hthere)]
    refine ⟨?_, fun _ ha => absurd ha List.not_mem_nil⟩
    show Replay server r arg { net with
      server := some ({ conn with received := conn.received ++ chunk }, arg')
      requests := net.requests.drop chunk.length
      responses := net.responses ++ [] }
    rw [List.append_nil]
    refine h.reads hserver ?_
    rw [hdrop]
    exact ⟨tail, htail⟩

/-- What an update of the client does is to hand out what is parsed. -/
theorem handleData_actions {c c' : SocketClient} {chunk : Bytes}
    {actions : List ClientAction}
    (h : handleData services l c chunk = .done c' actions) :
    actions = [] ∨ ∃ m d info,
      parseRequest [] (c.received ++ chunk) l.wireValue = .ok info ∧
        actions = [.response m d
          (((c.received ++ chunk).drop info.headerLen).take info.msgLen)] := by
  unfold handleData at h
  by_cases hempty : chunk.length = 0
  · rw [if_pos hempty] at h
    cases h
  rw [if_neg hempty] at h
  cases hparse : parseRequest [] (c.received ++ chunk) l.wireValue with
  | abort => simp [hparse] at h
  | fault f => simp [hparse] at h
  | err =>
      simp only [hparse] at h
      cases h
      exact .inl rfl
  | ok info =>
      simp only [hparse] at h
      cases hlast : c.lastMethod with
      | none => simp [hlast] at h
      | some m =>
          simp only [hlast] at h
          cases h
          exact .inr ⟨m, _, info, rfl, rfl⟩

/-- What is parsed of a buffer in which a response comes first is that
response. -/
theorem parseRequest_response {buf rest res : Bytes} {info : HeaderInfo}
    {wireValue : UInt64} (hres : res.length < 2 ^ 32)
    (hpre : responseFrame res <+: buf ++ rest)
    (hparse : parseRequest [] buf wireValue = .ok info) :
    (buf.drop info.headerLen).take info.msgLen = res := by
  by_cases hthere : (responseFrame res).length ≤ buf.length
  · have hbuf : responseFrame res <+: buf :=
      List.prefix_of_prefix_length_le hpre (List.prefix_append ..) hthere
    obtain ⟨info', hparse', hpayload⟩ :=
      responseFrame_parses hres hbuf wireValue
    obtain rfl := Parsed.ok.inj (hparse.symm.trans hparse')
    exact hpayload
  · obtain ⟨tail, htail⟩ := hpre
    have hshort := @parseRequest_short [] (headerBytes responseHeader) res
      buf tail (by decide) hres
      (by rw [← responseFrame, htail]; exact List.prefix_append ..)
      (Nat.not_le.mp hthere) wireValue
    rw [hshort] at hparse
    cases hparse

/-- The client is gone. -/
theorem Replay.gone (h : Replay server r arg net) :
    Replay.Keeps server r arg ({ net with client := none }, []) :=
  ⟨⟨nofun, h.request, nofun⟩, fun _ ha => absurd ha List.not_mem_nil⟩

/-- The client reads. -/
theorem Replay.clientUpdate
    (hres : (server.answer arg r).2.length < 2 ^ 32)
    (h : Replay server r arg net) (l : Locals) (n : Nat) :
    Replay.Keeps server r arg
      (net.step server services (.clientUpdate l n)) := by
  rcases clientUpdate_cases server services net l n with
    hidle | ⟨c, chunk, rest, hclient, hresponses, hstep⟩
  · rw [hidle]
    exact h.idle
  have hdrop : net.responses.drop chunk.length = rest := by
    rw [hresponses, List.drop_left]
  rw [hstep]
  cases hdata : handleData services l c chunk with
  | abort => exact h.gone
  | fault f => exact h.gone
  | done c' actions =>
      obtain ⟨hchunk, rfl, -⟩ := handleData_done hdata
      have hkept : c.received ++ net.responses
          = (c.received ++ chunk) ++ net.responses.drop chunk.length := by
        rw [hdrop, List.append_assoc, ← hresponses]
      have hthere : responseFrame (server.answer arg r).2
          <+: (c.received ++ chunk) ++ net.responses.drop chunk.length := by
        rw [← hkept]
        refine (h.response c hclient).resolve_left fun hnone => hchunk ?_
        rw [hresponses] at hnone
        exact (List.append_eq_nil_iff.mp
          (List.append_eq_nil_iff.mp hnone.1).2).1
      have hsent : actions.flatMap ClientAction.sentBytes = [] := by
        rcases handleData_actions hdata with rfl | ⟨m, d, info, -, rfl⟩ <;> rfl
      refine ⟨⟨?_, ?_, ?_⟩, fun a ha => ?_⟩
      · intro c₁ heq
        obtain rfl := Option.some.inj heq
        exact h.connected c hclient
      · intro conn arg' heq
        show _ <+: conn.received ++ (net.requests ++ _)
        rw [hsent, List.append_nil]
        exact h.request conn arg' heq
      · intro c₁ heq
        obtain rfl := Option.some.inj heq
        exact .inr hthere
      · obtain ⟨action, haction, rfl⟩ := List.mem_map.mp ha
        rcases handleData_actions hdata with rfl | ⟨m, d, info, hparse, rfl⟩
        · cases haction
        · rw [List.mem_singleton.mp haction]
          exact parseRequest_response hres hthere hparse

/-- The client makes a call. -/
theorem Replay.call (h : Replay server r arg net) (l : Locals)
    (m : MethodRef) (handled : Err × Bytes) :
    Replay.Keeps server r arg
      (net.step server services (.call l m handled)) := by
  unfold Network.step
  cases hclient : net.client with
  | none => exact h.idle
  | some c =>
      have hconn := h.connected c hclient
      obtain ⟨last, actions, hcall, hresp, -⟩ :=
        @transportCall_sends services c hconn l m handled
      dsimp only
      rw [hcall]
      refine ⟨⟨?_, ?_, ?_⟩, fun a ha => ?_⟩
      · intro c₁ heq
        obtain rfl := Option.some.inj heq
        exact hconn
      · intro conn arg' heq
        show _ <+: conn.received ++ (net.requests ++ _)
        rw [← List.append_assoc]
        exact (h.request conn arg' heq).trans (List.prefix_append ..)
      · intro c₁ heq
        obtain rfl := Option.some.inj heq
        exact h.response c hclient
      · obtain ⟨action, haction, rfl⟩ := List.mem_map.mp ha
        cases action with
        | response m' d res =>
            have hnone := List.filterMap_eq_nil_iff.mp hresp _ haction
            cases hnone
        | request | sent | done => trivial

-- ==================================================================== runs

/-- So does every run. -/
theorem Replay.run {steps : List NetStep}
    (hr : r.Found server.services)
    (hres : (server.answer arg r).2.length < 2 ^ 32)
    (h : Replay server r arg net) :
    Replay.Keeps server r arg (net.run server services steps) := by
  induction steps generalizing net with
  | nil => exact h.idle
  | cons step steps ih =>
      have hone : Replay.Keeps server r arg
          (net.step server services step) := by
        cases step with
        | call l m handled => exact h.call l m handled
        | serverUpdate l n => exact h.serverUpdate hr l n
        | clientUpdate l n => exact h.clientUpdate hres l n
      obtain ⟨hnext, hactions⟩ := hone
      obtain ⟨hafter, hrest⟩ := ih hnext
      refine ⟨hafter, fun a ha => ?_⟩
      rcases List.mem_append.mp ha with ha | ha
      · exact hactions a ha
      · exact hrest a ha

/-- The step is a call whose request handler accepts. -/
def NetStep.accepted : NetStep → Bool
  | .call _ _ (.ok, _) => true
  | _ => false

/-- Without such a call nothing happens over a fresh connection. -/
theorem start_step {clientLen serverLen : Nat} {step : NetStep}
    (h : step.accepted = false) :
    ∃ actions, (Network.start clientLen serverLen arg).step server services
        step = (Network.start clientLen serverLen arg, actions) ∧
      ∀ a ∈ actions, a.Replays server r arg := by
  cases step with
  | serverUpdate l n =>
      exact ⟨[], step_serverUpdate_idle rfl rfl, nofun⟩
  | clientUpdate l n =>
      exact ⟨[], step_clientUpdate_idle rfl rfl, nofun⟩
  | call l m handled =>
      obtain ⟨err, req⟩ := handled
      have hrefused : err ≠ .ok := by
        rintro rfl
        cases h
      refine ⟨[.client (.request m (methodOf services m).reqDesc)], ?_,
        fun a ha => ?_⟩
      · simp [Network.start, Network.step, transportCall, hrefused,
          Network.clientRet, ClientAction.sentBytes]
      · rw [List.mem_singleton.mp ha]
        trivial

theorem start_run {clientLen serverLen : Nat} {steps : List NetStep}
    (h : ∀ s ∈ steps, s.accepted = false) :
    ∃ actions, (Network.start clientLen serverLen arg).run server services
        steps = (Network.start clientLen serverLen arg, actions) ∧
      ∀ a ∈ actions, a.Replays server r arg := by
  induction steps with
  | nil => exact ⟨[], rfl, nofun⟩
  | cons step steps ih =>
      obtain ⟨actions, hstep, hactions⟩ :=
        @start_step σ server services r arg clientLen serverLen step
          (h step List.mem_cons_self)
      obtain ⟨rest, hsteps, hrest⟩ :=
        ih fun s hs => h s (List.mem_cons_of_mem _ hs)
      refine ⟨actions ++ rest, ?_, fun a ha => ?_⟩
      · rw [Network.run, hstep]
        simp only [hsteps]
      · rcases List.mem_append.mp ha with ha | ha
        · exact hactions a ha
        · exact hrest a ha

/-- Whatever a client calls over a connection, and however the programs are
scheduled: the server runs its handler for the first request that is sent,
and the client is handed the answer to that. -/
theorem network_replays_first (server : Server σ)
    (services : List ServiceDesc) (arg : σ) (clientLen serverLen : Nat)
    (before after : List NetStep) (l : Locals) {m m' : MethodRef}
    {req : Bytes} {r : Request}
    (hbefore : ∀ s ∈ before, s.accepted = false)
    (hnames : Names server.services (cstr (serviceOf services m).name)
      (cstr (methodOf services m).name) m')
    (hfit : HeaderFits (requestHeader (serviceOf services m).name
      (methodOf services m).name))
    (hreq : req.length < 2 ^ 32)
    (hr : r = Request.ofCall m' (serviceOf services m).name
      (methodOf services m).name req)
    (hres : (server.answer arg r).2.length < 2 ^ 32) :
    ∀ a ∈ ((Network.start clientLen serverLen arg).run server services
        (before ++ .call l m (.ok, req) :: after)).2,
      a.Replays server r arg := by
  have hfound : r.Found server.services := by
    rw [hr]
    exact Request.ofCall_found hnames hfit hreq
  have hbytes : r.bytes = frameBytes (headerBytes (requestHeader
      (serviceOf services m).name (methodOf services m).name)) req := by
    rw [hr]
    rfl
  obtain ⟨quiet, hquiet, hquietOk⟩ :=
    @start_run σ server services r arg clientLen serverLen before hbefore
  have hcall : (Network.start clientLen serverLen arg).step server services
      (.call l m (.ok, req))
        = (⟨some ⟨true, [], clientLen, some m⟩,
            some (⟨[], serverLen, true⟩, arg), r.bytes, []⟩,
          [.client (.request m (methodOf services m).reqDesc),
            .client (.sent m r.bytes)]) := by
    simp [Network.start, Network.step, transportCall, sendRequest_fits l hfit,
      hbytes, Network.clientRet, ClientAction.sentBytes]
  have hreplay : Replay server r arg
      ⟨some ⟨true, [], clientLen, some m⟩,
        some (⟨[], serverLen, true⟩, arg), r.bytes, []⟩ := by
    refine ⟨?_, ?_, ?_⟩
    · intro c heq
      obtain rfl := Option.some.inj heq
      rfl
    · intro conn arg' heq
      obtain ⟨rfl, rfl⟩ := Prod.mk.inj (Option.some.inj heq)
      exact List.prefix_refl _
    · intro c heq
      obtain rfl := Option.some.inj heq
      refine .inl ⟨rfl, fun conn arg' heq => ?_⟩
      exact (Prod.mk.inj (Option.some.inj heq)).2.symm
  intro a ha
  rw [Network.run_append, hquiet] at ha
  simp only [Network.run, hcall] at ha
  rcases List.mem_append.mp ha with ha | ha
  · exact hquietOk a ha
  rcases List.mem_append.mp ha with ha | ha
  · rcases List.mem_pair.mp ha with rfl | rfl <;> trivial
  · exact (hreplay.run hfound hres).2 a ha

/-- The calls of the method `p` with the payloads 1 and 2, and what reads
them. -/
def pingTwice : List NetStep :=
  [.call freshLocals ⟨0, 0⟩ (.ok, [1]), .serverUpdate freshLocals 7,
    .call freshLocals ⟨0, 0⟩ (.ok, [2]), .serverUpdate freshLocals 63,
    .clientUpdate freshLocals 63]

theorem network_replays_first_ping :
    (pingTwice.filter NetStep.accepted).length = 2 ∧
      ∀ a ∈ ((Network.start 1024 1024 ()).run pingServer pingServer.services
          ([] ++ pingTwice)).2,
        a.Replays pingServer (Request.ofCall ⟨0, 0⟩ [115] [112] [1]) () := by
  refine ⟨by decide, network_replays_first pingServer pingServer.services ()
    1024 1024 [] (pingTwice.drop 1) freshLocals nofun ?_ ?_ (by decide) rfl
    (by decide)⟩
  · exact ⟨rfl, rfl⟩
  · exact headerFits_iff.mpr (by decide)

end Lwpb
