/-
Which requests the server dispatches.

`handle_connection` appends what it receives and parses the buffer from
its beginning. Nothing moves `conn->pos` back or takes a frame out of the
buffer, so once the first frame is there, every receive dispatches that
frame again, and no other; a full buffer makes `recv` return 0, and the
connection is closed. A header that names its method before its service
leaves `method_desc` NULL, and it is followed all the same.

So the calls of a run are the first request, once for every receive that
ends between the end of the first frame and the end of the buffer
(`serve_repeats`), or nothing (`serve_silent`). That is every request
exactly once only if the method of the first is found, the requests are
all the same, and there are as many such receives as requests
(`server_dispatch_iff`). All this is for a first request whose header
leads with its unknown fields; behind a known field the decoder takes one
for that field again. The headers of the other requests are never read.
-/
import Lwpb.Proofs.Rpc.Parse

namespace Lwpb

open Memory Slice

variable {σ : Type} {server : Server σ}

-- ============================================================ the property

/-- The request a handler call is for. -/
def Action.called : Action → Option (MethodRef × Bytes)
  | .call method _ req _ => some (method, req)
  | _ => none

def Action.isResponse : Action → Bool
  | .response _ => true
  | _ => false

/-- Every request is dispatched once, in order, with its method and its
payload, and one response is sent for each. -/
structure ExactlyOnce (requests : List Request) (run : List Action × Bool) :
    Prop where
  calls : run.1.filterMap Action.called
    = requests.map fun r => (r.method, r.payload)
  responses : (run.1.filter Action.isResponse).length = requests.length
  returned : run.2 = true

/-- No chunk is empty, and none is longer than what `recv` is asked for,
as long as it is asked for anything. -/
def Chunked (len : Nat) : (used : Nat) → List Bytes → Prop
  | _, [] => True
  | used, c :: cs =>
      c ≠ [] ∧ (len ≤ used ∨ used + c.length ≤ len) ∧
        Chunked len (used + c.length) cs

/-- The receives that end with at least `lo` and at most `hi` bytes. -/
def receivesWithin (lo hi : Nat) : (used : Nat) → List Bytes → Nat
  | _, [] => 0
  | used, c :: cs =>
      (if lo ≤ used + c.length ∧ used + c.length ≤ hi then 1 else 0)
        + receivesWithin lo hi (used + c.length) cs

-- ================================================================ one call

variable {l : Locals} {conn : Conn} {arg : σ} {chunk : Bytes}
  {r : Request} {tail : Bytes}

/-- A receive that does not complete the first frame. -/
theorem handleConnection_short (hr : r.WellFormed server.services)
    (hne : chunk ≠ []) (hpre : conn.received ++ chunk <+: r.bytes ++ tail)
    (hlt : (conn.received ++ chunk).length < r.bytes.length) :
    handleConnection server l conn arg chunk
      = .done { conn with received := conn.received ++ chunk } arg [] := by
  unfold handleConnection
  rw [if_neg (fun h => hne (List.length_eq_zero_iff.mp h))]
  simp only [parseRequest_short hr.header_lt hr.payload_lt hpre hlt]

/-- What the handler makes of a request. -/
def Server.answer (server : Server σ) (arg : σ) (r : Request) : σ × Bytes :=
  server.callHandler arg r.method (server.method r.method).reqDesc r.payload
    (server.method r.method).resDesc

/-- The call of the handler for a request. -/
def Server.callFor (server : Server σ) (r : Request) : Action :=
  .call r.method (server.method r.method).reqDesc r.payload
    (server.method r.method).resDesc

/-- One that leaves the first frame in the buffer calls the handler for it,
and sends what the handler makes of it. -/
theorem handleConnection_answers (hr : r.Found server.services)
    (hne : chunk ≠ [])
    (hpre : r.bytes <+: conn.received ++ chunk) {bytes : Bytes}
    (hbytes : sendResponse l (server.answer arg r).2 = some bytes) :
    handleConnection server l conn arg chunk
      = .done { conn with received := conn.received ++ chunk }
        (server.answer arg r).1 [server.callFor r, .response bytes] := by
  obtain ⟨rest, hrest⟩ := hpre
  have hpayload : ((conn.received ++ chunk).drop
      (r.header.bytes.length + 12)).take r.payload.length = r.payload := by
    have hhead : (preHeader r.header.bytes.length r.payload.length
        ++ r.header.bytes).length = r.header.bytes.length + 12 := by
      rw [List.length_append, preHeader_length, Nat.add_comm]
    have hdrop : (conn.received ++ chunk).drop (r.header.bytes.length + 12)
        = r.payload ++ rest := by
      rw [← hrest, Request.bytes, frameBytes, List.append_assoc]
      exact List.drop_left' hhead
    rw [hdrop]
    exact List.take_left' rfl
  obtain ⟨info, hparse, hheader, hmsg, hdesc⟩ :=
    parseRequest_complete hr.toWellFormed hr.leads rest l.wireValue
  rw [if_pos hr.found] at hdesc
  rw [hrest] at hparse
  unfold Server.answer at hbytes
  unfold handleConnection
  rw [if_neg (fun h => hne (List.length_eq_zero_iff.mp h))]
  simp only [hparse, hdesc, hheader, hmsg, hpayload, hbytes]
  rfl

/-- One that leaves the first frame in the buffer dispatches it. -/
theorem handleConnection_dispatch (hr : r.Found server.services)
    (hne : chunk ≠ [])
    (hpre : conn.received ++ chunk <+: r.bytes ++ tail)
    (hle : r.bytes.length ≤ (conn.received ++ chunk).length) :
    ∃ arg' bytes, handleConnection server l conn arg chunk
      = .done { conn with received := conn.received ++ chunk } arg'
        [.call r.method (server.method r.method).reqDesc r.payload
          (server.method r.method).resDesc, .response bytes] := by
  have hthere : r.bytes <+: conn.received ++ chunk :=
    List.prefix_of_prefix_length_le (List.prefix_append ..) hpre hle
  obtain ⟨bytes, hbytes⟩ := sendResponse_total l (server.answer arg r).2
  exact ⟨_, bytes, handleConnection_answers hr hne hthere hbytes⟩

/-- A method that was not found is followed. -/
theorem handleConnection_nullDesc (hr : r.WellFormed server.services)
    (hlead : r.Leads) (hnot : methodFound false r.fields = false)
    (hne : chunk ≠ [])
    (hpre : conn.received ++ chunk <+: r.bytes ++ tail)
    (hle : r.bytes.length ≤ (conn.received ++ chunk).length) :
    handleConnection server l conn arg chunk = .fault .nullDesc := by
  obtain ⟨rest, hrest⟩ : r.bytes <+: conn.received ++ chunk :=
    List.prefix_of_prefix_length_le (List.prefix_append ..) hpre hle
  obtain ⟨info, hparse, -, -, hdesc⟩ :=
    parseRequest_complete hr hlead rest l.wireValue
  rw [hnot] at hdesc
  rw [hrest] at hparse
  unfold handleConnection
  rw [if_neg (fun h => hne (List.length_eq_zero_iff.mp h))]
  simp only [hparse, hdesc]
  rfl

-- ==================================================================== runs

/-- Nothing is received into a full buffer. -/
theorem receivesWithin_full {lo hi : Nat} {used : Nat}
    {chunks : List Bytes} (hfull : hi ≤ used)
    (hch : Chunked hi used chunks) :
    receivesWithin lo hi used chunks = 0 := by
  induction chunks generalizing used with
  | nil => rfl
  | cons c cs ih =>
      obtain ⟨hne, -, hrest⟩ := hch
      have hpos := List.length_pos_iff.mpr hne
      rw [receivesWithin, if_neg (by omega), ih (by omega) hrest]

theorem serve_closed (hconn : conn.connected = false)
    (chunks : List (Locals × Bytes)) :
    serve server conn arg chunks = ([], true) := by
  cases chunks with
  | nil => rfl
  | cons chunk chunks =>
      obtain ⟨l, c⟩ := chunk
      rw [serve, hconn, if_neg Bool.false_ne_true]

theorem serve_cons {conn' : Conn} {arg' : σ} {actions : List Action}
    {chunks : List (Locals × Bytes)} (hconn : conn.connected = true)
    (h : handleConnection server l conn arg
        (chunk.take (conn.len - conn.received.length))
      = .done conn' arg' actions) :
    serve server conn arg ((l, chunk) :: chunks)
      = (actions ++ (serve server conn' arg' chunks).1,
        (serve server conn' arg' chunks).2) := by
  rw [serve, if_pos hconn, h]

/-- `recv` into a full buffer is asked for no bytes, and the connection is
closed. -/
theorem serve_full {chunks : List (Locals × Bytes)}
    (hconn : conn.connected = true)
    (hfull : conn.len ≤ conn.received.length) :
    serve server conn arg ((l, chunk) :: chunks) = ([.close], true) := by
  have hclose : handleConnection server l conn arg
      (chunk.take (conn.len - conn.received.length))
        = .done { conn with connected := false } arg [.close] := by
    rw [Nat.sub_eq_zero_of_le hfull, List.take_zero]
    rfl
  rw [serve_cons hconn hclose, serve_closed rfl]
  rfl

/-- The next chunk, received whole. -/
structure Received (conn : Conn) (stream chunk : Bytes)
    (chunks : List Bytes) : Prop where
  whole : chunk.take (conn.len - conn.received.length) = chunk
  fits : (conn.received ++ chunk).length ≤ conn.len
  here : conn.received ++ chunk <+: stream
  next : (conn.received ++ chunk) ++ chunks.flatten <+: stream
  rest : Chunked conn.len (conn.received ++ chunk).length chunks

theorem Chunked.received {stream : Bytes} {chunks : List Bytes}
    (hch : Chunked conn.len conn.received.length (chunk :: chunks))
    (hroom : ¬ conn.len ≤ conn.received.length)
    (hpre : conn.received ++ (chunk :: chunks).flatten <+: stream) :
    Received conn stream chunk chunks := by
  obtain ⟨-, hbound, hrest⟩ := hch
  have hfits := hbound.resolve_left hroom
  have hnext : (conn.received ++ chunk) ++ chunks.flatten <+: stream := by
    rw [List.append_assoc]
    exact hpre
  refine ⟨List.take_of_length_le (by omega), ?_,
    (List.prefix_append _ _).trans hnext, hnext, ?_⟩
  · rw [List.length_append]
    exact hfits
  · rw [List.length_append]
    exact hrest

/-- The calls of a run are the first request, again and again. -/
structure Repeats (r : Request) (n : Nat) (run : List Action × Bool) :
    Prop where
  calls : run.1.filterMap Action.called
    = List.replicate n (r.method, r.payload)
  responses : (run.1.filter Action.isResponse).length = n
  returned : run.2 = true

theorem serve_repeats {chunks : List (Locals × Bytes)}
    (hr : r.Found server.services)
    (hconn : conn.connected = true)
    (hpre : conn.received ++ (chunks.map (·.2)).flatten
      <+: r.bytes ++ tail)
    (hch : Chunked conn.len conn.received.length (chunks.map (·.2))) :
    Repeats r (receivesWithin r.bytes.length conn.len conn.received.length
      (chunks.map (·.2))) (serve server conn arg chunks) := by
  induction chunks generalizing conn arg with
  | nil => exact ⟨rfl, rfl, rfl⟩
  | cons chunk chunks ih =>
      obtain ⟨l, c⟩ := chunk
      by_cases hfull : conn.len ≤ conn.received.length
      · rw [serve_full hconn hfull, receivesWithin_full hfull hch]
        exact ⟨rfl, rfl, rfl⟩
      · obtain ⟨hwhole, hfits, hhere, hnext, hrest⟩ :
            Received conn (r.bytes ++ tail) c (chunks.map Prod.snd) :=
          Chunked.received hch hfull hpre
        have hrun : ∀ arg', Repeats r _ (serve server
            { conn with received := conn.received ++ c } arg' chunks) :=
          fun arg' => ih hconn hnext hrest
        rw [List.map_cons, receivesWithin, ← List.length_append]
        show Repeats r ((if _ ≤ (conn.received ++ c).length ∧ _ then 1 else 0)
          + receivesWithin _ _ (conn.received ++ c).length _) _
        by_cases hdone : r.bytes.length ≤ (conn.received ++ c).length
        · obtain ⟨arg', bytes, hdisp⟩ := @handleConnection_dispatch σ server
            l conn arg c r tail hr hch.1 hhere hdone
          rw [← hwhole] at hdisp
          rw [serve_cons hconn hdisp, hwhole, if_pos ⟨hdone, hfits⟩,
            Nat.add_comm]
          obtain ⟨hcalls, hres, hret⟩ := hrun arg'
          refine ⟨?_, ?_, hret⟩
          · rw [List.replicate_succ, ← hcalls]
            rfl
          · exact congrArg (· + 1) hres
        · have hpart := @handleConnection_short σ server l conn arg c r tail
            hr.toWellFormed hch.1 hhere (Nat.not_le.mp hdone)
          rw [← hwhole] at hpart
          rw [serve_cons hconn hpart, hwhole, if_neg (fun h => hdone h.1),
            Nat.zero_add]
          exact hrun arg

/-- Nothing is called if the method is not found. -/
theorem serve_silent {chunks : List (Locals × Bytes)}
    (hr : r.WellFormed server.services) (hlead : r.Leads)
    (hnot : methodFound false r.fields = false)
    (hconn : conn.connected = true)
    (hpre : conn.received ++ (chunks.map (·.2)).flatten
      <+: r.bytes ++ tail)
    (hch : Chunked conn.len conn.received.length (chunks.map (·.2))) :
    (serve server conn arg chunks).1.filterMap Action.called = [] := by
  induction chunks generalizing conn arg with
  | nil => rfl
  | cons chunk chunks ih =>
      obtain ⟨l, c⟩ := chunk
      by_cases hfull : conn.len ≤ conn.received.length
      · rw [serve_full hconn hfull]
        rfl
      · obtain ⟨hwhole, -, hhere, hnext, hrest⟩ :
            Received conn (r.bytes ++ tail) c (chunks.map Prod.snd) :=
          Chunked.received hch hfull hpre
        by_cases hdone : r.bytes.length ≤ (conn.received ++ c).length
        · have hfault := @handleConnection_nullDesc σ server l conn arg c r
            tail hr hlead hnot hch.1 hhere hdone
          rw [serve, if_pos hconn, hwhole, hfault]
          rfl
        · have hpart := @handleConnection_short σ server l conn arg c r tail
            hr hch.1 hhere (Nat.not_le.mp hdone)
          rw [← hwhole] at hpart
          rw [serve_cons hconn hpart, hwhole]
          exact ih hconn hnext hrest

/-- What a run that dispatches every request once needs of the requests
behind the first, and of the receives: the first request's method is
found, the other requests are the first one again, and as many receives
end between the end of the first frame and the end of the buffer as there
are requests. -/
structure RepeatsFirst (len : Nat) (chunks : List Bytes) (r : Request)
    (rest : List Request) : Prop where
  found : methodFound false r.fields = true
  same : ∀ q ∈ rest, q.method = r.method ∧ q.payload = r.payload
  receives : receivesWithin r.bytes.length len 0 chunks = rest.length + 1

/-- The requests that are the first one again. -/
theorem same_iff (r : Request) (rest : List Request) :
    (∀ q ∈ rest, q.method = r.method ∧ q.payload = r.payload) ↔
      rest.map (fun q => (q.method, q.payload))
        = List.replicate rest.length (r.method, r.payload) := by
  rw [List.eq_replicate_iff, List.length_map]
  simp

/-- A first request that is found, and the others the same: each is
dispatched once. -/
theorem exactlyOnce_of_repeats {chunks : List (Locals × Bytes)}
    {rest : List Request} {len : Nat} (hr : r.WellFormed server.services)
    (hlead : r.Leads) (h : RepeatsFirst len (chunks.map (·.2)) r rest)
    (hstream : (chunks.map (·.2)).flatten
      = (r :: rest).flatMap Request.bytes)
    (hchunks : Chunked len 0 (chunks.map (·.2))) :
    ExactlyOnce (r :: rest) (serve server ⟨[], len, true⟩ arg chunks) := by
  obtain ⟨hfound, hsame, hn⟩ := h
  have hpre : [] ++ (chunks.map (·.2)).flatten
      <+: r.bytes ++ rest.flatMap Request.bytes := by
    rw [hstream]
    exact List.prefix_refl _
  have hrun : Repeats r
      (receivesWithin r.bytes.length len 0 (chunks.map (·.2)))
      (serve server ⟨[], len, true⟩ arg chunks) :=
    @serve_repeats σ server ⟨[], len, true⟩ arg r _ chunks
      ⟨hr, hlead, hfound⟩ rfl hpre hchunks
  rw [hn] at hrun
  obtain ⟨hcalls, hres, hret⟩ := hrun
  refine ⟨?_, hres, hret⟩
  rw [hcalls, List.replicate_succ, List.map_cons,
    (same_iff r rest).mp hsame]

/-- And only then, if the server reads the first header as it is meant. -/
theorem repeats_of_exactlyOnce {chunks : List (Locals × Bytes)}
    {rest : List Request} {len : Nat} (hr : r.WellFormed server.services)
    (hlead : r.Leads)
    (hstream : (chunks.map (·.2)).flatten
      = (r :: rest).flatMap Request.bytes)
    (hchunks : Chunked len 0 (chunks.map (·.2)))
    (h : ExactlyOnce (r :: rest)
      (serve server ⟨[], len, true⟩ arg chunks)) :
    RepeatsFirst len (chunks.map (·.2)) r rest := by
  have hpre : [] ++ (chunks.map (·.2)).flatten
      <+: r.bytes ++ rest.flatMap Request.bytes := by
    rw [hstream]
    exact List.prefix_refl _
  have hfound : methodFound false r.fields = true := by
    refine Bool.of_not_eq_false fun hnot => ?_
    have hnone := @serve_silent σ server ⟨[], len, true⟩ arg r _ chunks hr
      hlead hnot rfl hpre hchunks
    exact List.cons_ne_nil _ _ (h.calls.symm.trans hnone)
  have hcalls := (@serve_repeats σ server ⟨[], len, true⟩ arg r _ chunks
    ⟨hr, hlead, hfound⟩ rfl hpre hchunks).calls.symm.trans h.calls
  have hn := congrArg List.length hcalls
  rw [List.length_replicate, List.length_map, List.length_cons] at hn
  rw [hn, List.replicate_succ, List.map_cons] at hcalls
  exact ⟨hfound, (same_iff r rest).mpr (List.cons.inj hcalls).2.symm, hn⟩

/-- A stream of no requests has no chunks. -/
theorem chunks_nil {len : Nat} {chunks : List (Locals × Bytes)}
    (hstream : (chunks.map (·.2)).flatten = [])
    (hchunks : Chunked len 0 (chunks.map (·.2))) : chunks = [] := by
  cases chunks with
  | nil => rfl
  | cons chunk chunks =>
      obtain ⟨l, c⟩ := chunk
      rw [List.map_cons, List.flatten_cons] at hstream
      exact absurd (List.append_eq_nil_iff.mp hstream).1 hchunks.1

/-- One service with one method. -/
def pingServer : Server Unit where
  services := [⟨[⟨0, 0, [112]⟩], [115]⟩]
  callHandler := fun _ _ _ _ _ => ((), [])

/-- The header of a request for the method `p` of the service `s`, with
more behind it. -/
def pingHeader (rest : Wire) : Wire :=
  .scalar headerType [8] (.varint [0])
    (.scalar headerService [18] (.string [1] [115])
      (.scalar headerMethod [26] (.string [1] [112]) rest))

/-- A request for it. -/
def pingRequest (payload : Bytes) : Request :=
  ⟨⟨0, 0⟩, [.type, .service, .method], pingHeader .nil, payload⟩

theorem pingRequest_wellFormed (payload : Bytes)
    (h : payload.length < 2 ^ 32) :
    (pingRequest payload).WellFormed pingServer.services where
  header := by
    show (pingHeader .nil).WellFormed ..
    decide
  names := ⟨[115], [112], rfl, rfl, rfl⟩
  complete := by
    have hall : ∀ f : HeaderField, f ∈ [HeaderField.type, .service, .method] :=
      fun f => by cases f <;> decide
    exact hall
  header_lt := by
    show (pingHeader .nil).bytes.length < 2 ^ 32
    decide
  payload_lt := h

/-- Two services, the second with the methods `p` and `q`. -/
def pairServer : Server Unit where
  services := [⟨[⟨0, 0, [112]⟩], [114]⟩,
    ⟨[⟨0, 0, [112]⟩, ⟨0, 0, [113]⟩], [115]⟩]
  callHandler := fun _ _ _ _ _ => ((), [])

/-- A request for `p` with an unknown field in front that says `q`. -/
def pairRequest : Request :=
  ⟨⟨1, 0⟩, [.type, .service, .method],
    .unknown [34] (.string [1] [113]) (pingHeader .nil), [7]⟩

/-- The unknown field that says `q` behind the method: it is read as the
method again, and `q` is called. -/
example :
    (serve pairServer ⟨[], 1024, true⟩ ()
      [(freshLocals, Request.bytes ⟨⟨1, 0⟩, [.type, .service, .method],
        pingHeader (.unknown [34] (.string [1] [113]) .nil), [7]⟩)]).1.filterMap
          Action.called = [(⟨1, 1⟩, [7])] := by
  decide +kernel

end Lwpb
