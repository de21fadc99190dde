/-
What `send_request` sends, whole or not.

The header is encoded into 128 bytes, and nobody looks whether it fits:
something is sent for every method. It is a frame of the request, which is
resolved to the method, exactly if the names have 122 bytes together at
most, and the message a length of 32 bits (`sends_whole_iff`).

The bound is the room of the header less its overhead: three keys, two
lengths of names and the type. Within it `frames_round_trip` has the whole
statement. Beyond it there are two ways to go wrong: a header that does
not fit is cut by the encoder's failed calls, whose errors are not looked
at, and a message whose length does not fit 32 bits has a length word that
says less (`parseRequest_msgLen_lt`).
-/
import Lwpb.Proofs.Rpc.Framing
import Lwpb.Proofs.Rpc.Survival

namespace Lwpb

open Base128

variable {services : List ServiceDesc} {data : Bytes}

/-- What is sent for a method is a frame that is resolved to it, and if the
header does not fit, nothing is sent. -/
structure SendsWhole (services : List ServiceDesc) (l : Locals) (i j : Nat)
    (svc : ServiceDesc) (meth : MethodDesc) (req : Bytes) : Prop where
  frame : ∀ F, sendRequest l svc.name meth.name req = some F →
    RoundTrips services F req protocolRequest (some i) (some ⟨i, j⟩)
  incomplete : ¬ HeaderFits (requestHeader svc.name meth.name) →
    sendRequest l svc.name meth.name req = none

-- ================================================================= headers

theorem headerBytes_request (service method : Bytes) :
    (headerBytes (requestHeader service method)).length
      = 4 + (encode (strlen service)).length + strlen service
        + (encode (strlen method)).length + strlen method := by
  have htype : (encode (TwosComplement.residue 64
      protocolRequest.toInt)).length = 1 := by decide
  have hkeys : ((socketProtocol.field headerType).key .varint).length = 1 ∧
      ((socketProtocol.field headerService).key .string).length = 1 ∧
      ((socketProtocol.field headerMethod).key .string).length = 1 := by
    decide
  unfold headerBytes requestHeader
  simp only [Tree.wire, Wire.bytes, Value.payload, Payload.bytes,
    Payload.wireType, List.length_append, htype, hkeys, List.length_nil]
  show _ = 4 + (encode (cstr service).length).length + (cstr service).length
    + (encode (cstr method).length).length + (cstr method).length
  omega

/-- A header fits if the names have 122 bytes together at most. -/
theorem headerFits_iff {service method : Bytes} :
    HeaderFits (requestHeader service method) ↔
      strlen service + strlen method ≤ 122 := by
  have hservice := encode_length_pos (strlen service)
  have hmethod := encode_length_pos (strlen method)
  unfold HeaderFits
  rw [headerBytes_request]
  constructor
  · intro h
    omega
  · intro h
    have hone : ∀ n, n ≤ 122 → (encode n).length = 1 := fun n hn => by
      rw [encode_of_lt (by omega)]
      rfl
    rw [hone _ (by omega), hone _ (by omega)]
    omega

-- ================================================================= lengths

/-- The handler leaves the lengths as they are. -/
theorem handleFields_lengths {es : List (Event Span)}
    {info info' : HeaderInfo}
    (h : handleFields services data info es = .ok info') :
    info'.headerLen = info.headerLen ∧ info'.msgLen = info.msgLen := by
  induction es generalizing info with
  | nil =>
      obtain rfl := Outcome.ok.inj h
      exact ⟨rfl, rfl⟩
  | cons e es ih =>
      rw [handleFields] at h
      obtain ⟨next, hnext, hrest⟩ := Outcome.bind_eq_ok.mp h
      have hkept : next.headerLen = info.headerLen ∧
          next.msgLen = info.msgLen := by
        rcases headerString_cases e with ⟨s, hs⟩ | ⟨s, hs⟩ | ⟨hs, hm⟩
        · rw [handler_ofService hs] at hnext
          obtain ⟨k, -, rfl⟩ := (lookupService_ok info).mp hnext
          exact ⟨rfl, rfl⟩
        · rw [handler_ofMethod hs] at hnext
          cases hknown : info.serviceDesc with
          | none =>
              rw [lookupMethod_unknown hknown] at hnext
              obtain rfl := Outcome.ok.inj hnext
              exact ⟨rfl, rfl⟩
          | some i =>
              obtain ⟨k, -, rfl⟩ := (lookupMethod_ok hknown).mp hnext
              exact ⟨rfl, rfl⟩
        · obtain ⟨type, htype⟩ := @handler_ofOther services data e hs hm info
          rw [htype] at hnext
          obtain rfl := Outcome.ok.inj hnext
          exact ⟨rfl, rfl⟩
      rw [← hkept.1, ← hkept.2]
      exact ih hrest

/-- The length of a message has 32 bits. -/
theorem parseRequest_msgLen_lt {buf : Bytes} {wireValue : UInt64}
    {info : HeaderInfo} (h : parseRequest services buf wireValue = .ok info) :
    info.msgLen < 2 ^ 32 := by
  rcases parseRequest_cases services buf wireValue with herr | ⟨header, hframe⟩
  · rw [herr] at h
    cases h
  · obtain ⟨n, m, hm, heq⟩ := parseRequest_holds services hframe wireValue
    obtain ⟨events, used, -, hfields⟩ := parseHeader_ok.mp (heq.symm.trans h)
    rw [(handleFields_lengths hfields).2]
    exact hm

-- ==================================================================== sends

/-- No malformed frame is sent if and only if the names have 122 bytes
together at most, and the message is shorter than 2³². -/
theorem sends_whole_iff (l : Locals) {i j : Nat} {svc : ServiceDesc}
    {meth : MethodDesc} (hsvc : services[i]? = some svc)
    (hmeth : svc.methods[j]? = some meth)
    (hservices : (services.map fun s => cstr s.name).Nodup)
    (hmethods : (svc.methods.map fun d => cstr d.name).Nodup) (req : Bytes) :
    SendsWhole services l i j svc meth req ↔
      strlen svc.name + strlen meth.name ≤ 122 ∧ req.length < 2 ^ 32 := by
  rw [← headerFits_iff]
  constructor
  · intro h
    obtain ⟨F, hF⟩ := sendRequest_total l svc.name meth.name req
    have hfit : HeaderFits (requestHeader svc.name meth.name) := by
      by_contra hnot
      rw [h.incomplete hnot] at hF
      cases hF
    obtain ⟨info, hparse, -, -, -, hpayload, -⟩ := (h.frame F hF).parses [] 0
    refine ⟨hfit, ?_⟩
    calc req.length = ((F.drop info.headerLen).take info.msgLen).length := by
          rw [hpayload]
      _ ≤ info.msgLen := List.length_take_le ..
      _ < 2 ^ 32 := parseRequest_msgLen_lt hparse
  · intro h
    refine ⟨fun F hF => ?_, fun hnot => absurd h.1 hnot⟩
    rw [sendRequest_fits l h.1] at hF
    obtain rfl := Option.some.inj hF
    exact requestFrame_roundTrips
      (names_of_distinct hsvc hmeth hservices hmethods) h.1 h.2

/-- The method `p` of the only service `s`. -/
theorem sends_whole_iff_ping :
    SendsWhole pingServer.services freshLocals 0 0 ⟨[⟨0, 0, [112]⟩], [115]⟩
        ⟨0, 0, [112]⟩ [1] ↔
      strlen [115] + strlen [112] ≤ 122 ∧ [1].length < 2 ^ 32 :=
  sends_whole_iff freshLocals rfl rfl (by decide) (by decide) [1]

/-- A service whose name has 130 bytes, and one method. -/
def longService : ServiceDesc := ⟨[⟨0, 0, [112]⟩], List.replicate 130 115⟩

/-- What is sent for it has a length of the name, but no name, and is not
parsed. -/
theorem long_name_cut :
    ¬ HeaderFits (requestHeader longService.name [112]) ∧
      ∃ F, sendRequest freshLocals longService.name [112] [] = some F ∧
        parseRequest [longService] F 0 = .err ∧
        ¬ SendsWhole [longService] freshLocals 0 0 longService ⟨0, 0, [112]⟩
          [] := by
  have hnot : ¬ HeaderFits (requestHeader longService.name [112]) := by
    rw [headerFits_iff]
    decide +kernel
  have hsent : sendRequest freshLocals longService.name [112] []
      = some (frameBytes [8, 0, 18, 130, 1, 26, 1, 112] []) := by
    decide +kernel
  refine ⟨hnot, _, hsent, by decide +kernel, fun h => ?_⟩
  have hnone := h.incomplete hnot
  rw [hsent] at hnone
  cases hnone

end Lwpb
