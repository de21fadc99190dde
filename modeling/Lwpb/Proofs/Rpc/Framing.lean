/-
Frames, sent and read back.

`send_request` and `send_response` send a pre-header, a header and a
message; `parse_request` is given a growing buffer after every receive.
The two agree (`frames_round_trip`): what was sent is parsed as soon as it
is there, whatever comes behind it, with the service and the method it was
sent for, and no part of it is taken for a whole frame.

The names in the header are C strings: what is written of a name ends in
front of its first NUL, and the lookup compares C strings, so that names
that differ there are told apart.

`RoundTrips` says of a frame what a reader of a stream needs: all of it
with anything behind it is resolved, and no strict front of it is. It is
proved once, of any header that decodes and is handled
(`frame_roundTrips`), and a request and a response are the two cases. What
the encoder makes of the header is the round trip of the codec, as the
header is itself a message.
-/
import Lwpb.Lib.Assoc
import Lwpb.Proofs.Rpc.Parse
import Lwpb.Proofs.RoundTrip
import Mathlib.Data.List.TakeWhile

namespace Lwpb

open Memory Slice

variable {services : List ServiceDesc} {data : Bytes}

-- ================================================================= strings

theorem not_mem_cstr (str : Bytes) : 0 ∉ cstr str := by
  intro hmem
  have hne := List.mem_takeWhile_imp hmem
  cases hne

theorem cstr_cstr (str : Bytes) : cstr (cstr str) = cstr str :=
  List.takeWhile_idem

theorem cstr_getD {str : Bytes} {i : Nat} (h : i < strlen str) :
    (cstr str).getD i 0 = str.getD i 0 := by
  have hpre : cstr str <+: str := List.takeWhile_prefix _
  have hlt : i < (cstr str).length := h
  rw [List.getD_eq_getElem?_getD, List.getD_eq_getElem?_getD,
    List.getElem?_eq_getElem hlt,
    List.getElem?_eq_getElem (Nat.lt_of_lt_of_le hlt hpre.length_le),
    hpre.getElem hlt]

/-- A payload depends on what a pointer points at as far as it is long. -/
theorem encodePayload_src {s : Enc} {word : UInt64} {src src' : Nat → UInt8}
    (h : ∀ i, i < word.toNat → src i = src' i) :
    encodePayload s .string ⟨word, .ext src⟩
      = encodePayload s .string ⟨word, .ext src'⟩ := by
  have hcopy : ∀ (mem : Mem) (dst : Nat),
      copy mem dst word.toNat src = copy mem dst word.toNat src' := by
    intro mem dst
    funext i
    unfold copy
    split
    · next hin => rw [h _ (by omega)]
    · rfl
  simp only [encodePayload, Source.bytes, hcopy]

/-- Of a string the encoder reads its C string. -/
theorem addString_cstr {sch : Schema} {u : Scratch} {s : Enc} {f : FieldRef}
    (htyp : (sch.field f).opts.typ = .string) (str : Bytes) :
    addString sch u s f str = addString sch u s f (cstr str) := by
  have hlen : strlen (cstr str) = strlen str := by
    show (cstr (cstr str)).length = (cstr str).length
    rw [cstr_cstr]
  have hsrc : ∀ i, i < (UInt64.ofNat (strlen str)).toNat →
      str.getD i 0 = (cstr str).getD i 0 := by
    intro i hi
    have hle : (UInt64.ofNat (strlen str)).toNat ≤ strlen str := by
      rw [UInt64.toNat_ofNat']
      exact Nat.mod_le _ _
    exact (cstr_getD (by omega)).symm
  have hpayload : ∀ t : Enc,
      encodePayload t .string
          ⟨UInt64.ofNat (strlen str), .ext fun i => str.getD i 0⟩
        = encodePayload t .string
          ⟨UInt64.ofNat (strlen str), .ext fun i => (cstr str).getD i 0⟩ :=
    fun t => encodePayload_src hsrc
  unfold addString addField
  rw [hlen]
  simp only [encodeField, encodeWireValue, htyp, RawValue.setString,
    encodeKeyed, hpayload]

-- ================================================================= headers

/-- The header of a request. -/
def requestHeader (service method : Bytes) : Tree :=
  .scalar headerType (.enum protocolRequest)
    (.scalar headerService (.string (cstr service))
      (.scalar headerMethod (.string (cstr method)) .nil))

/-- The header of a response. -/
def responseHeader : Tree :=
  .scalar headerType (.enum protocolResponse) .nil

/-- A header, as it is written. -/
def headerBytes (T : Tree) : Bytes := (T.wire socketProtocol).bytes

/-- The header fits the local buffer it is encoded in. -/
def HeaderFits (T : Tree) : Prop := (headerBytes T).length ≤ 128

theorem responseHeader_conforms :
    responseHeader.Conforms socketProtocol headerDesc :=
  ⟨⟨rfl, by decide, by decide⟩, rfl, rfl, trivial⟩

theorem requestHeader_length (service method : Bytes) :
    (cstr service).length ≤ (headerBytes (requestHeader service method)).length
      ∧ (cstr method).length
        ≤ (headerBytes (requestHeader service method)).length := by
  unfold headerBytes requestHeader
  simp only [Tree.wire, Wire.bytes, Value.payload, Payload.bytes,
    List.length_append]
  omega

theorem requestHeader_conforms {service method : Bytes}
    (h : HeaderFits (requestHeader service method)) :
    (requestHeader service method).Conforms socketProtocol headerDesc := by
  obtain ⟨hservice, hmethod⟩ := requestHeader_length service method
  unfold HeaderFits at h
  exact ⟨⟨rfl, by decide, by decide⟩, rfl, rfl,
    ⟨rfl, by decide, by decide⟩, rfl,
    ⟨rfl, not_mem_cstr service, by omega⟩,
    ⟨rfl, by decide, by decide⟩, rfl,
    ⟨rfl, not_mem_cstr method, by omega⟩, trivial⟩

/-- A call with the C string of its string. -/
def Act.cstr : Act → Act
  | .add f (.string str) => .add f (.string (Lwpb.cstr str))
  | a => a

/-- Calls that come to the same one by one come to the same. -/
theorem runActs_map {sch : Schema} {s : Enc} {session : List (Scratch × Act)}
    (g : Act → Act)
    (h : ∀ x ∈ session, ∀ t, (g x.2).run sch x.1 t = x.2.run sch x.1 t) :
    (runActs sch s (session.map fun x => (x.1, g x.2))).2
      = (runActs sch s session).2 := by
  induction session generalizing s with
  | nil => rfl
  | cons x session ih =>
      obtain ⟨u, a⟩ := x
      have ha : (g a).run sch u s = a.run sch u s :=
        h (u, a) List.mem_cons_self s
      unfold runActs
      rw [List.map_cons, runSteps, runSteps, ha]
      cases a.run sch u s with
      | ret err t => exact ih fun x hx => h x (List.mem_cons_of_mem _ hx)
      | abort | fault => rfl

/-- A header of values that fits is encoded. -/
theorem encodeHeader_fits (l : Locals) {T : Tree} {acts : List Act}
    (hT : T.Conforms socketProtocol headerDesc) (hnest : T.nesting ≤ maxDepth)
    (hsize : T.estimate socketProtocol ≤ 128)
    (hacts : acts.map Act.cstr = T.calls)
    (hrun : ∀ a ∈ acts, ∀ u s, a.cstr.run socketProtocol u s
      = a.run socketProtocol u s) :
    encodeHeader l acts = some (headerBytes T) := by
  have hsame := @runActs_map socketProtocol
    (encoderStart l.encoder headerDesc 0 128)
    (acts.map fun a => (l.scratch a, a)) Act.cstr (by
      intro x hx t
      obtain ⟨a, ha, rfl⟩ := List.mem_map.mp hx
      exact hrun a ha _ t)
  have hcalls : (((acts.map fun a => (l.scratch a, a)).map
      fun x => (x.1, x.2.cstr)).map (·.2)) = T.calls := by
    rw [← hacts, List.map_map, List.map_map]
    rfl
  obtain ⟨made, t, hsession, -, -, -, hread⟩ :=
    @session_runs socketProtocol _ _ l.encoder headerDesc 0 128 T _
      (drives_run socketProtocol) (by decide) hT.typed hnest hcalls
      (.inr (by
        show 0 + T.estimate socketProtocol ≤ 0 + 128
        omega))
  unfold encodeHeader
  rw [← hsame, runActs, hsession]
  exact congrArg some hread

theorem requestHeader_estimate (service method : Bytes) :
    (requestHeader service method).estimate socketProtocol
      = (headerBytes (requestHeader service method)).length := by
  simp only [Tree.estimate, Tree.sized, Tree.frames, headerBytes,
    requestHeader, Tree.wire, Wire.bytes, List.length_append,
    List.length_nil, Nat.mul_zero, Nat.add_zero]

/-- A request whose header fits is a frame with this header. -/
theorem sendRequest_fits (l : Locals) {service method : Bytes}
    (h : HeaderFits (requestHeader service method)) (req : Bytes) :
    sendRequest l service method req
      = some (frameBytes (headerBytes (requestHeader service method)) req) := by
  have hheader : encodeHeader l [.add headerType (.enum protocolRequest),
      .add headerService (.string service),
      .add headerMethod (.string method)]
        = some (headerBytes (requestHeader service method)) := by
    refine encodeHeader_fits l (requestHeader_conforms h)
      (by show 1 ≤ 32; decide) ?_ rfl ?_
    · rw [requestHeader_estimate]
      exact h
    · intro a ha u s
      simp only [List.mem_cons, List.not_mem_nil, or_false] at ha
      rcases ha with rfl | rfl | rfl
      · rfl
      · exact (addString_cstr rfl service).symm
      · exact (addString_cstr rfl method).symm
  rw [sendRequest, hheader]
  rfl

/-- So is every response. -/
theorem sendResponse_fits (l : Locals) (res : Bytes) :
    sendResponse l res
      = some (frameBytes (headerBytes responseHeader) res) := by
  have hheader : encodeHeader l [.add headerType (.enum protocolResponse)]
      = some (headerBytes responseHeader) := by
    refine encodeHeader_fits l responseHeader_conforms (by decide) (by decide)
      rfl ?_
    intro a ha u s
    rw [List.mem_singleton.mp ha]
    rfl
  rw [sendResponse, hheader]
  rfl

-- ================================================================ handlers

variable {info info' : HeaderInfo} {m : MethodRef} {service method : Bytes}

/-- The type is stored, and the rest of the header is handled. -/
theorem Reports.type {out : List (Event Span)} {es : List (Event Bytes)}
    {type : Int32}
    (h : Reports data out
      (.field headerDesc headerType (some (.enum type)) false :: es)) :
    ∃ rest, Reports data rest es ∧ ∀ info,
      handleFields services data info out
        = handleFields services data { info with msgType := type } rest := by
  obtain ⟨hres, hin⟩ := h
  obtain ⟨e, rest, rfl, he, hrest⟩ := List.map_eq_cons_iff.mp hres
  obtain ⟨v, rfl, hv⟩ := resolve_field he
  obtain rfl := map_enum hv
  exact ⟨rest, ⟨hrest, fun x hx => hin x (List.mem_cons_of_mem _ hx)⟩,
    fun info => handleFields_cons rfl⟩

/-- The names of a method are looked up. -/
theorem Reports.names {out : List (Event Span)}
    (h : Reports data out
      [.field headerDesc headerService (some (.string service)) false,
        .field headerDesc headerMethod (some (.string method)) false])
    (hnames : Names services service method m) (info : HeaderInfo) :
    handleFields services data info out
      = .ok { info with serviceDesc := some m.service
                        methodDesc := some m } := by
  obtain ⟨hres, hin⟩ := h
  obtain ⟨e, rest, rfl, he, hres⟩ := List.map_eq_cons_iff.mp hres
  have hres' : rest.map (Event.resolve data)
      = [.field headerDesc headerMethod (some (.string method)) false] := hres
  obtain ⟨e', rfl, he'⟩ := List.map_eq_singleton_iff.mp hres'
  have hin₁ := hin e List.mem_cons_self
  have hin₂ := hin e' (List.mem_cons_of_mem _ List.mem_cons_self)
  obtain ⟨v, rfl, hv⟩ := resolve_field he
  obtain ⟨str, rfl, hstr⟩ := map_string hv
  obtain ⟨v', rfl, hv'⟩ := resolve_field he'
  obtain ⟨str', rfl, hstr'⟩ := map_string hv'
  obtain ⟨hservice, hmethod⟩ := hnames
  rw [← hstr] at hservice
  rw [← hstr'] at hmethod
  rw [handleFields_cons
      ((handler_service ..).trans (lookupService_eq info hin₁ hservice)),
    handleFields_cons
      ((handler_method ..).trans (lookupMethod_eq hin₂ rfl hmethod))]
  rfl

/-- In a list of distinct names the names of a method denote it. -/
theorem names_of_distinct {i j : Nat} {svc : ServiceDesc} {meth : MethodDesc}
    (hsvc : services[i]? = some svc) (hmeth : svc.methods[j]? = some meth)
    (hservices : (services.map fun s => cstr s.name).Nodup)
    (hmethods : (svc.methods.map fun d => cstr d.name).Nodup) :
    Names services (cstr svc.name) (cstr meth.name) ⟨i, j⟩ := by
  have hget : services.getD i ⟨[], []⟩ = svc := by
    rw [List.getD_eq_getElem?_getD, hsvc]
    rfl
  refine ⟨Assoc.findIdx?_of_nodup hservices hsvc (beq_self_eq_true _)
    fun _ _ h => (eq_of_beq h).symm, ?_⟩
  rw [hget]
  exact Assoc.findIdx?_of_nodup hmethods hmeth (beq_self_eq_true _)
    fun _ _ h => (eq_of_beq h).symm

-- ============================================================== round trips

/-- What a reader of a request header is told. -/
theorem requestHeader_report (service method : Bytes) :
    ((requestHeader service method).wire socketProtocol).report
        socketProtocol headerDesc
      = .msgStart headerDesc false ::
        [.field headerDesc headerType (some (.enum protocolRequest)) false,
          .field headerDesc headerService (some (.string (cstr service)))
            false,
          .field headerDesc headerMethod (some (.string (cstr method)))
            false] ++ [.msgEnd headerDesc false] := by
  have htype : ((Value.enum protocolRequest).payload .enum).read .enum
      = .enum protocolRequest := Value.read_payload rfl
  show _ :: [Event.field headerDesc headerType (some _) false, _, _] ++ _
    = _
  rw [← htype]
  rfl

theorem responseHeader_report :
    (responseHeader.wire socketProtocol).report socketProtocol headerDesc
      = .msgStart headerDesc false ::
        [.field headerDesc headerType (some (.enum protocolResponse)) false]
          ++ [.msgEnd headerDesc false] := by
  have htype : ((Value.enum protocolResponse).payload .enum).read .enum
      = .enum protocolResponse := Value.read_payload rfl
  show _ :: [Event.field headerDesc headerType (some _) false] ++ _ = _
  rw [← htype]
  rfl

/-- A header is decoded as it was written. -/
theorem header_decodes (wireValue : UInt64) {T : Tree}
    (hT : T.Conforms socketProtocol headerDesc) (hnest : T.nesting ≤ maxDepth)
    (hfit : HeaderFits T) :
    ∃ out used, Decodes socketProtocol headerDesc (headerBytes T) wireValue
        out (.ok used) ∧
      Reports (headerBytes T) out
        ((T.wire socketProtocol).report socketProtocol headerDesc) := by
  unfold HeaderFits headerBytes at hfit
  have hwf : (T.wire socketProtocol).WellFormed socketProtocol typed
      headerDesc :=
    Tree.wellFormed (by decide) (by decide)
      (hT.typed.mono fun _ _ => Value.Fits.ofType) (by omega)
  obtain ⟨out, hdec, hout⟩ := decode_wire wireValue hwf (T.leading false)
    (by rw [Tree.nesting_wire]; exact hnest)
  exact ⟨out, _, hdec, hout⟩

/-- `F` is a whole frame for `payload`, and nothing shorter is one. -/
structure RoundTrips (services : List ServiceDesc) (F payload : Bytes)
    (type : Int32) (service : Option Nat) (method : Option MethodRef) :
    Prop where
  parses : ∀ (t : Bytes) (wireValue : UInt64), ∃ info,
    parseRequest services (F ++ t) wireValue = .ok info ∧
      info.msgType = type ∧ info.serviceDesc = service ∧
      info.methodDesc = method ∧
      (F.drop info.headerLen).take info.msgLen = payload ∧
      info.headerLen + info.msgLen = F.length
  prefixes : ∀ (p : Bytes) (wireValue : UInt64), p <+: F → p ≠ F →
    ∀ info, parseRequest services p wireValue ≠ .ok info

/-- A frame whose header is decoded and handled round-trips. -/
theorem frame_roundTrips {T : Tree} {payload : Bytes} {type : Int32}
    {s : Option Nat} {m : Option MethodRef}
    (hT : T.Conforms socketProtocol headerDesc) (hnest : T.nesting ≤ maxDepth)
    (hfit : HeaderFits T) (hpayload : payload.length < 2 ^ 32)
    (hhandled : ∀ out, Reports (headerBytes T) out
        ((T.wire socketProtocol).report socketProtocol headerDesc) →
      ∀ headerLen msgLen, handleFields services (headerBytes T)
        ⟨0, none, none, headerLen, msgLen⟩ out
          = .ok ⟨type, s, m, headerLen, msgLen⟩) :
    RoundTrips services (frameBytes (headerBytes T) payload) payload type s
      m := by
  have hheader : (headerBytes T).length < 2 ^ 32 := by
    unfold HeaderFits at hfit
    omega
  refine ⟨fun t wireValue => ?_, fun p wireValue hpre hne info => ?_⟩
  · obtain ⟨out, used, hdec, hout⟩ := header_decodes wireValue hT hnest hfit
    refine ⟨_, parseRequest_frame hheader hpayload hdec
      (hhandled out hout _ _) t, rfl, rfl, rfl, ?_, ?_⟩
    · have hdrop : (frameBytes (headerBytes T) payload).drop
          ((headerBytes T).length + 12) = payload := by
        refine List.drop_left' ?_
        rw [List.length_append, preHeader_length, Nat.add_comm]
      show ((frameBytes (headerBytes T) payload).drop
        ((headerBytes T).length + 12)).take payload.length = payload
      rw [hdrop, List.take_length]
    · rw [frameBytes_length]
  · have hlt : p.length < (frameBytes (headerBytes T) payload).length := by
      refine Nat.lt_of_le_of_ne hpre.length_le fun hlen => hne ?_
      exact hpre.eq_of_length hlen
    have hshort := @parseRequest_short services _ _ _ [] hheader hpayload
      (by rw [List.append_nil]; exact hpre) hlt wireValue
    rw [hshort]
    exact Parsed.noConfusion

/-- A frame of a request is resolved to its method. -/
theorem requestFrame_roundTrips {i j : Nat} {svc : ServiceDesc}
    {meth : MethodDesc} {req : Bytes}
    (hnames : Names services (cstr svc.name) (cstr meth.name) ⟨i, j⟩)
    (hfit : HeaderFits (requestHeader svc.name meth.name))
    (hreq : req.length < 2 ^ 32) :
    RoundTrips services
      (frameBytes (headerBytes (requestHeader svc.name meth.name)) req) req
      protocolRequest (some i) (some ⟨i, j⟩) := by
  refine frame_roundTrips (requestHeader_conforms hfit)
    (by show 1 ≤ 32; decide) hfit hreq fun out hout headerLen msgLen => ?_
  rw [requestHeader_report] at hout
  obtain ⟨fields, hfields, heq⟩ := hout.header
  obtain ⟨rest, hrest, heq'⟩ := hfields.type
  rw [heq, heq', hrest.names hnames]

/-- What `send_request` sends for a method of a list of distinct names, and
what `send_response` sends, round-trips through `parse_request`. -/
theorem frames_round_trip (services : List ServiceDesc) (l : Locals)
    {i j : Nat} {svc : ServiceDesc} {meth : MethodDesc} {req res : Bytes}
    (hsvc : services[i]? = some svc) (hmeth : svc.methods[j]? = some meth)
    (hservices : (services.map fun s => cstr s.name).Nodup)
    (hmethods : ∀ s ∈ services, (s.methods.map fun d => cstr d.name).Nodup)
    (hfit : HeaderFits (requestHeader svc.name meth.name))
    (hreq : req.length < 2 ^ 32) (hres : res.length < 2 ^ 32) :
    (∃ F, sendRequest l svc.name meth.name req = some F ∧
      RoundTrips services F req protocolRequest (some i) (some ⟨i, j⟩)) ∧
    ∃ F, sendResponse l res = some F ∧
      RoundTrips services F res protocolResponse none none := by
  have hnames := names_of_distinct hsvc hmeth hservices
    (hmethods svc (List.mem_of_getElem? hsvc))
  refine ⟨⟨_, sendRequest_fits l hfit req, ?_⟩,
    ⟨_, sendResponse_fits l res, ?_⟩⟩
  · exact requestFrame_roundTrips hnames hfit hreq
  · refine frame_roundTrips responseHeader_conforms (by decide)
      (by unfold HeaderFits; decide)
      hres fun out hout headerLen msgLen => ?_
    rw [responseHeader_report] at hout
    obtain ⟨fields, hfields, heq⟩ := hout.header
    obtain ⟨rest, hrest, heq'⟩ := hfields.type
    have hnil : rest = [] := List.map_eq_nil_iff.mp hrest.resolves
    rw [heq, heq', hnil]
    rfl

/-- A service `r` with the method `p`, and a service `s` with the methods
`p` and `add`. -/
def twoServices : List ServiceDesc :=
  [⟨[⟨0, 0, [112]⟩], [114]⟩,
    ⟨[⟨0, 0, [112]⟩, ⟨0, 0, [97, 100, 100]⟩], [115]⟩]

/-- The frames of the method `add` of `s`. -/
theorem frames_round_trip_add :
    (∃ F, sendRequest freshLocals [115] [97, 100, 100] [8, 1, 16, 2]
        = some F ∧
      RoundTrips twoServices F [8, 1, 16, 2] protocolRequest (some 1)
        (some ⟨1, 1⟩)) ∧
    ∃ F, sendResponse freshLocals [8, 3] = some F ∧
      RoundTrips twoServices F [8, 3] protocolResponse none none :=
  @frames_round_trip twoServices freshLocals 1 1
    ⟨[⟨0, 0, [112]⟩, ⟨0, 0, [97, 100, 100]⟩], [115]⟩ ⟨0, 0, [97, 100, 100]⟩
    [8, 1, 16, 2] [8, 3] rfl rfl (by decide)
    (by decide) (by unfold HeaderFits; decide) (by decide) (by decide)

end Lwpb
