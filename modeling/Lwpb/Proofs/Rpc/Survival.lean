/-
What a frame can do to a server.

`handle_connection` follows the method descriptor that `parse_request`
gives it whether there is one or not. A descriptor is there if the header
gives a service of the list and, behind it, a method of that service; a
whole frame with any other header (an unknown name, a name that is left out,
the method in front of the service, a response) has the server follow NULL
(`survives_iff`).

The stream may be anything, so the header is not known to be well formed:
what is known is which fields the decoder reports of it. `Misses` reads
them in order, with the service that is known so far, as the handler does.
Everything else that a call does is safe: the decoder over the protocol's
own schema follows no NULL (`parseHeader_noNull`), and a method that is
found is one of the list (`parseRequest_inList`).
-/
import Lwpb.Proofs.Rpc.Dispatch

namespace Lwpb

open Slice

variable {services : List ServiceDesc} {data : Bytes}

-- =============================================================== properties

/-- A method of the list. -/
def IsMethod (services : List ServiceDesc) (m : MethodRef) : Prop :=
  m.service < services.length ∧
    m.method < (services.getD m.service ⟨[], []⟩).methods.length

/-- A call of `handle_connection` in a run. -/
structure ConnCall (σ : Type) where
  locals : Locals
  conn : Conn
  arg : σ
  chunk : Bytes

variable {σ : Type}

def ConnCall.outcome (server : Server σ) (c : ConnCall σ) : Handled σ :=
  handleConnection server c.locals c.conn c.arg c.chunk

/-- The bytes in the buffer behind a receive. -/
def ConnCall.buffer (c : ConnCall σ) : Bytes := c.conn.received ++ c.chunk

/-- The calls of a run, up to the first that does not return. -/
def served (server : Server σ) :
    Conn → σ → List (Locals × Bytes) → List (ConnCall σ)
  | _, _, [] => []
  | conn, arg, (l, chunk) :: rest =>
      if conn.connected then
        let c : ConnCall σ :=
          ⟨l, conn, arg, chunk.take (conn.len - conn.received.length)⟩
        c :: match c.outcome server with
          | .done conn arg _ => served server conn arg rest
          | .abort | .fault _ => []
      else []

/-- A call that hands only methods of the list to the user's handler, and
follows no NULL descriptor. -/
structure Handled.Survives (services : List ServiceDesc) (h : Handled σ) :
    Prop where
  handler : ∀ conn arg actions m reqDesc req resDesc,
    h = .done conn arg actions → .call m reqDesc req resDesc ∈ actions →
    IsMethod services m
  noNull : h ≠ .fault .nullDesc

/-- The buffer begins with a whole frame, and this is its header. -/
structure HoldsFrame (buf header : Bytes) : Prop where
  long : preHeaderSize ≤ buf.length
  magic : ntohl (buf.take 4) = protocolMagic
  whole : (ntohl ((buf.drop 4).take 4)).toNat + preHeaderSize
    + (ntohl ((buf.drop 8).take 4)).toNat ≤ buf.length
  header : header
    = (buf.drop preHeaderSize).take (ntohl ((buf.drop 4).take 4)).toNat

/-- The string that is reported for a field of the header. -/
def headerString (f : FieldRef) : Event Span → Option Span
  | .field m g (some (.string s)) _ =>
      if m = headerDesc ∧ g = f then some s else none
  | _ => none

/-- What is reported names no method; `i` is the service that is known. -/
inductive Misses (services : List ServiceDesc) (data : Bytes) :
    (i : Option Nat) → List (Event Span) → Prop where
  | nil {i : Option Nat} : Misses services data i []
  /-- Neither of the names. -/
  | other {i : Option Nat} {e : Event Span} {es : List (Event Span)} :
      headerString headerService e = none →
      headerString headerMethod e = none →
      Misses services data i es → Misses services data i (e :: es)
  /-- The name of a service, of the list or not. -/
  | service {i k : Option Nat} {e : Event Span} {es : List (Event Span)}
      {s : Span} : headerString headerService e = some s →
      findName data s 0 (services.map (·.name)) = .ok k →
      Misses services data (k.or i) es → Misses services data i (e :: es)
  /-- The name of a method in front of that of a service. -/
  | early {e : Event Span} {es : List (Event Span)} {s : Span} :
      headerString headerMethod e = some s →
      Misses services data none es → Misses services data none (e :: es)
  /-- The name of a method that the service does not have. -/
  | unknown {i : Nat} {e : Event Span} {es : List (Event Span)} {s : Span} :
      headerString headerMethod e = some s →
      findName data s 0
        ((services.getD i ⟨[], []⟩).methods.map (·.name)) = .ok none →
      Misses services data (some i) es →
      Misses services data (some i) (e :: es)

/-- The buffer begins with a whole frame whose header is decoded and names
no method. -/
def NamesNoMethod (services : List ServiceDesc) (buf : Bytes)
    (wireValue : UInt64) : Prop :=
  ∃ header events used, HoldsFrame buf header ∧
    decode socketProtocol headerDesc header wireValue = (events, .ok used) ∧
    Misses services header none events

-- ================================================================= handlers

/-- The name of the service is looked up. -/
theorem handler_ofService {e : Event Span} {s : Span}
    (h : headerString headerService e = some s) (info : HeaderInfo) :
    parseRequestFieldHandler services data info e
      = lookupService services data s info := by
  unfold headerString at h
  split at h
  · next m g s' packed =>
      by_cases hfield : m = headerDesc ∧ g = headerService
      · rw [if_pos hfield] at h
        obtain ⟨rfl, rfl⟩ := hfield
        rw [handler_service, Option.some.inj h]
      · rw [if_neg hfield] at h
        cases h
  · cases h

/-- The name of the method is. -/
theorem handler_ofMethod {e : Event Span} {s : Span}
    (h : headerString headerMethod e = some s) (info : HeaderInfo) :
    parseRequestFieldHandler services data info e
      = lookupMethod services data s info := by
  unfold headerString at h
  split at h
  · next m g s' packed =>
      by_cases hfield : m = headerDesc ∧ g = headerMethod
      · rw [if_pos hfield] at h
        obtain ⟨rfl, rfl⟩ := hfield
        rw [handler_method, Option.some.inj h]
      · rw [if_neg hfield] at h
        cases h
  · cases h

/-- Any other event changes the message type at most. -/
theorem handler_ofOther {e : Event Span}
    (hservice : headerString headerService e = none)
    (hmethod : headerString headerMethod e = none) (info : HeaderInfo) :
    ∃ type, parseRequestFieldHandler services data info e
      = .ok { info with msgType := type } := by
  cases e with
  | msgStart m packed => exact ⟨info.msgType, rfl⟩
  | msgEnd m packed => exact ⟨info.msgType, rfl⟩
  | field m f v packed =>
      cases v with
      | none => exact ⟨info.msgType, rfl⟩
      | some v =>
          unfold parseRequestFieldHandler
          by_cases hm : m = headerDesc
          · simp only
            rw [if_neg (not_not_intro hm)]
            cases v with
            | enum type =>
                by_cases hf : f = headerType
                · exact ⟨type, by simp [hf]⟩
                · exact ⟨info.msgType, by simp [hf]⟩
            | string s =>
                have hs : f ≠ headerService := fun hf => by
                  simp [headerString, hm, hf] at hservice
                have hm' : f ≠ headerMethod := fun hf => by
                  simp [headerString, hm, hf] at hmethod
                exact ⟨info.msgType, by simp [hs, hm']⟩
            | _ => exact ⟨info.msgType, rfl⟩
          · exact ⟨info.msgType, if_pos hm⟩

/-- The three kinds of what is reported. -/
theorem headerString_cases (e : Event Span) :
    (∃ s, headerString headerService e = some s) ∨
      (∃ s, headerString headerMethod e = some s) ∨
      headerString headerService e = none ∧
        headerString headerMethod e = none := by
  cases hservice : headerString headerService e with
  | some s => exact .inl ⟨s, rfl⟩
  | none =>
      cases hmethod : headerString headerMethod e with
      | some s => exact .inr (.inl ⟨s, rfl⟩)
      | none => exact .inr (.inr ⟨rfl, rfl⟩)

-- ================================================================= lookups

/-- The comparison of names can only fault on a string without bytes. -/
theorem isName_fault {s : Span} {name : Bytes} {f : Fault}
    (h : isName data s name = .fault f) : f = .pointer := by
  unfold isName at h
  by_cases hlen : s.len ≠ strlen name
  · rw [if_pos hlen] at h
    cases h
  · rw [if_neg hlen] at h
    by_cases hzero : s.len = 0
    · rw [if_pos hzero] at h
      cases h
    · rw [if_neg hzero] at h
      cases hdata : s.data with
      | none =>
          rw [hdata] at h
          exact (Outcome.fault.inj h).symm
      | some q =>
          rw [hdata] at h
          cases h

/-- So can the search. -/
theorem findName_fault {s : Span} {names : List Bytes} {i : Nat} {f : Fault}
    (h : findName data s i names = .fault f) : f = .pointer := by
  induction names generalizing i with
  | nil => cases h
  | cons name names ih =>
      rw [findName] at h
      rcases Outcome.bind_eq_fault.mp h with hname | ⟨found, -, hrest⟩
      · exact isName_fault hname
      · cases found with
        | true => cases hrest
        | false => exact ih hrest

/-- A name that is found is one of the names. -/
theorem findName_bound {s : Span} {names : List Bytes} {i j : Nat}
    (h : findName data s i names = .ok (some j)) : j < i + names.length := by
  induction names generalizing i with
  | nil => cases h
  | cons name names ih =>
      rw [findName] at h
      obtain ⟨found, -, hrest⟩ := Outcome.bind_eq_ok.mp h
      rw [List.length_cons]
      cases found with
      | true =>
          obtain rfl := Option.some.inj (Outcome.ok.inj hrest)
          omega
      | false =>
          have hlt := ih hrest
          omega

/-- What a service name comes to. -/
theorem lookupService_ok {s : Span} (info : HeaderInfo)
    {info' : HeaderInfo} :
    lookupService services data s info = .ok info' ↔
      ∃ k, findName data s 0 (services.map (·.name)) = .ok k ∧
        info' = { info with serviceDesc := k.or info.serviceDesc } := by
  unfold lookupService
  rw [Outcome.bind_eq_ok]
  refine exists_congr fun k => and_congr_right fun _ => ?_
  cases k with
  | none => exact ⟨fun h => (Outcome.ok.inj h).symm, fun h => h ▸ rfl⟩
  | some i => exact ⟨fun h => (Outcome.ok.inj h).symm, fun h => h ▸ rfl⟩

/-- What a method name comes to, where a service is known. -/
theorem lookupMethod_ok {s : Span} {info info' : HeaderInfo} {i : Nat}
    (hservice : info.serviceDesc = some i) :
    lookupMethod services data s info = .ok info' ↔
      ∃ k, findName data s 0
          ((services.getD i ⟨[], []⟩).methods.map (·.name)) = .ok k ∧
        info' = { info with
          methodDesc := (k.map (MethodRef.mk i)).or info.methodDesc } := by
  obtain ⟨type, service, method, headerLen, msgLen⟩ := info
  subst hservice
  unfold lookupMethod
  simp only
  rw [Outcome.bind_eq_ok]
  refine exists_congr fun k => and_congr_right fun _ => ?_
  cases k with
  | none => exact ⟨fun h => (Outcome.ok.inj h).symm, fun h => h ▸ rfl⟩
  | some j => exact ⟨fun h => (Outcome.ok.inj h).symm, fun h => h ▸ rfl⟩

/-- A handler that fails has read a string that is not there. -/
theorem handler_fault {e : Event Span} {info : HeaderInfo} {f : Fault}
    (h : parseRequestFieldHandler services data info e = .fault f) :
    f = .pointer := by
  rcases headerString_cases e with ⟨s, hs⟩ | ⟨s, hs⟩ | ⟨hservice, hmethod⟩
  · rw [handler_ofService hs] at h
    rcases Outcome.bind_eq_fault.mp h with hfind | ⟨k, -, hrest⟩
    · exact findName_fault hfind
    · cases k <;> cases hrest
  · rw [handler_ofMethod hs] at h
    unfold lookupMethod at h
    cases hknown : info.serviceDesc with
    | none => rw [hknown] at h; cases h
    | some i =>
        rw [hknown] at h
        rcases Outcome.bind_eq_fault.mp h with hfind | ⟨k, -, hrest⟩
        · exact findName_fault hfind
        · cases k <;> cases hrest
  · obtain ⟨type, htype⟩ := @handler_ofOther services data e hservice
      hmethod info
    rw [htype] at h
    cases h

/-- And so can all events of a header. -/
theorem handleFields_fault {es : List (Event Span)} {info : HeaderInfo}
    {f : Fault} (h : handleFields services data info es = .fault f) :
    f = .pointer := by
  induction es generalizing info with
  | nil => cases h
  | cons e es ih =>
      rw [handleFields] at h
      rcases Outcome.bind_eq_fault.mp h with hhandler | ⟨info', -, hrest⟩
      · exact handler_fault hhandler
      · exact ih hrest

/-- What is reported and names no method is passed over. -/
theorem handleFields_of_misses {es : List (Event Span)} {i : Option Nat}
    (h : Misses services data i es) {info : HeaderInfo}
    (hservice : info.serviceDesc = i) :
    ∃ info', handleFields services data info es = .ok info' ∧
      info'.methodDesc = info.methodDesc := by
  induction h generalizing info with
  | nil => exact ⟨info, rfl, rfl⟩
  | other hs hm _ ih =>
      obtain ⟨type, htype⟩ := handler_ofOther hs hm info
      rw [handleFields_cons htype]
      exact ih hservice
  | service hs hfind _ ih =>
      have hlookup := (lookupService_ok info).mpr ⟨_, hfind, rfl⟩
      rw [handleFields_cons ((handler_ofService hs info).trans hlookup)]
      exact ih (hservice ▸ rfl)
  | early hs _ ih =>
      rw [handleFields_cons ((handler_ofMethod hs info).trans
        (lookupMethod_unknown hservice))]
      exact ih hservice
  | unknown hs hfind _ ih =>
      have hlookup := (lookupMethod_ok hservice).mpr ⟨_, hfind, rfl⟩
      rw [handleFields_cons ((handler_ofMethod hs info).trans hlookup)]
      exact ih hservice

/-- Where no method is found behind all of it, none is named. -/
theorem misses_of_handleFields {es : List (Event Span)}
    {info info' : HeaderInfo}
    (h : handleFields services data info es = .ok info')
    (hnone : info'.methodDesc = none) :
    info.methodDesc = none ∧ Misses services data info.serviceDesc es := by
  induction es generalizing info with
  | nil =>
      obtain rfl := Outcome.ok.inj h
      exact ⟨hnone, .nil⟩
  | cons e es ih =>
      rw [handleFields] at h
      obtain ⟨next, hnext, hrest⟩ := Outcome.bind_eq_ok.mp h
      obtain ⟨hdesc, hmisses⟩ := ih hrest
      rcases headerString_cases e with ⟨s, hs⟩ | ⟨s, hs⟩ | ⟨hs, hm⟩
      · rw [handler_ofService hs] at hnext
        obtain ⟨k, hfind, rfl⟩ := (lookupService_ok info).mp hnext
        exact ⟨hdesc, .service hs hfind hmisses⟩
      · rw [handler_ofMethod hs] at hnext
        cases hknown : info.serviceDesc with
        | none =>
            rw [lookupMethod_unknown hknown] at hnext
            obtain rfl := Outcome.ok.inj hnext
            exact ⟨hdesc, .early hs (hknown ▸ hmisses)⟩
        | some i =>
            obtain ⟨k, hfind, rfl⟩ := (lookupMethod_ok hknown).mp hnext
            cases k with
            | some j => cases hdesc
            | none => exact ⟨hdesc, .unknown hs hfind (hknown ▸ hmisses)⟩
      · obtain ⟨type, htype⟩ := @handler_ofOther services data e hs hm
          info
        rw [htype] at hnext
        obtain rfl := Outcome.ok.inj hnext
        exact ⟨hdesc, .other hs hm hmisses⟩

/-- The descriptors that are known are those of the list. -/
structure HeaderInfo.InList (services : List ServiceDesc)
    (info : HeaderInfo) : Prop where
  service : ∀ i, info.serviceDesc = some i → i < services.length
  method : ∀ m, info.methodDesc = some m → IsMethod services m

/-- The method that a header names is one of the list. -/
theorem handleFields_inList {es : List (Event Span)}
    {info info' : HeaderInfo} (hinfo : info.InList services)
    (h : handleFields services data info es = .ok info') :
    info'.InList services := by
  induction es generalizing info with
  | nil => exact Outcome.ok.inj h ▸ hinfo
  | cons e es ih =>
      rw [handleFields] at h
      obtain ⟨next, hnext, hrest⟩ := Outcome.bind_eq_ok.mp h
      refine ih ?_ hrest
      rcases headerString_cases e with ⟨s, hs⟩ | ⟨s, hs⟩ | ⟨hs, hm⟩
      · rw [handler_ofService hs] at hnext
        obtain ⟨k, hfind, rfl⟩ := (lookupService_ok info).mp hnext
        refine ⟨fun i hi => ?_, hinfo.method⟩
        cases k with
        | none => exact hinfo.service i hi
        | some j =>
            obtain rfl := Option.some.inj hi
            have hlt := findName_bound hfind
            rwa [Nat.zero_add, List.length_map] at hlt
      · rw [handler_ofMethod hs] at hnext
        cases hknown : info.serviceDesc with
        | none =>
            rw [lookupMethod_unknown hknown] at hnext
            exact Outcome.ok.inj hnext ▸ hinfo
        | some i =>
            obtain ⟨k, hfind, rfl⟩ := (lookupMethod_ok hknown).mp hnext
            refine ⟨hinfo.service, fun m hm => ?_⟩
            cases k with
            | none => exact hinfo.method m hm
            | some j =>
                obtain rfl := Option.some.inj hm
                have hlt := findName_bound hfind
                rw [Nat.zero_add, List.length_map] at hlt
                exact ⟨hinfo.service i hknown, hlt⟩
      · obtain ⟨type, htype⟩ := @handler_ofOther services data e hs hm
          info
        rw [htype] at hnext
        obtain rfl := Outcome.ok.inj hnext
        exact ⟨hinfo.service, hinfo.method⟩

-- ================================================================== frames

/-- What is made of a header. -/
def parseHeader (services : List ServiceDesc) (header : Bytes)
    (info : HeaderInfo) (wireValue : UInt64) : Parsed :=
  match handleFields services header info
      (decode socketProtocol headerDesc header wireValue).1 with
  | .fault f => .fault f
  | .err _ => .err
  | .ok info =>
      match (decode socketProtocol headerDesc header wireValue).2 with
      | .ok _ => .ok info
      | .err _ => .err
      | .abort => .abort
      | .fault f => .fault f

variable {buf header : Bytes} {wireValue : UInt64}

/-- Only whole frames are parsed. -/
theorem parseRequest_cases (services : List ServiceDesc) (buf : Bytes)
    (wireValue : UInt64) : parseRequest services buf wireValue = .err ∨
      ∃ header, HoldsFrame buf header := by
  unfold parseRequest
  by_cases hlong : buf.length < preHeaderSize
  · exact .inl (if_pos hlong)
  · by_cases hmagic : ntohl (buf.take 4) = protocolMagic
    · by_cases hwhole : buf.length < (ntohl ((buf.drop 4).take 4)).toNat
          + preHeaderSize + (ntohl ((buf.drop 8).take 4)).toNat
      · left
        rw [if_neg hlong, if_neg (not_not_intro hmagic)]
        exact if_pos hwhole
      · exact .inr ⟨_, Nat.not_lt.mp hlong, hmagic, Nat.not_lt.mp hwhole, rfl⟩
    · left
      rw [if_neg hlong, if_pos hmagic]

/-- A whole frame is parsed by its header. -/
theorem parseRequest_holds (services : List ServiceDesc)
    (h : HoldsFrame buf header) (wireValue : UInt64) :
    ∃ n m, m < 2 ^ 32 ∧ parseRequest services buf wireValue
      = parseHeader services header ⟨0, none, none, n, m⟩ wireValue := by
  refine ⟨(ntohl ((buf.drop 4).take 4)).toNat + preHeaderSize,
    (ntohl ((buf.drop 8).take 4)).toNat, UInt32.toNat_lt _, ?_⟩
  unfold parseRequest parseHeader
  rw [if_neg (Nat.not_lt.mpr h.long), if_neg (not_not_intro h.magic)]
  simp only
  rewrite [if_neg (Nat.not_lt.mpr h.whole), ← h.header]
  obtain ⟨events, result⟩ := decode socketProtocol headerDesc header wireValue
  cases handleFields services header _ events with
  | fault f => rfl
  | err e => rfl
  | ok info => cases result <;> rfl

/-- A header is parsed when it decodes and its events are handled. -/
theorem parseHeader_ok {info info' : HeaderInfo} :
    parseHeader services header info wireValue = .ok info' ↔
      ∃ events used, decode socketProtocol headerDesc header wireValue
          = (events, .ok used) ∧
        handleFields services header info events = .ok info' := by
  unfold parseHeader
  obtain ⟨events, result⟩ := decode socketProtocol headerDesc header wireValue
  cases hfields : handleFields services header info events with
  | fault f => simp [hfields]
  | err e => simp [hfields]
  | ok found => cases result <;> simp [hfields]

/-- A header never leads to a null descriptor: only the message behind it can.
-/
theorem parseHeader_noNull (header : Bytes) (info : HeaderInfo)
    (wireValue : UInt64) :
    parseHeader services header info wireValue ≠ .fault .nullDesc := by
  have hdec := @decode_followsNoNull socketProtocol headerDesc header wireValue
    (by decide)
  unfold parseHeader
  cases hfields : handleFields services header info
      (decode socketProtocol headerDesc header wireValue).1 with
  | fault f =>
      rw [handleFields_fault hfields]
      exact nofun
  | err e => exact nofun
  | ok found =>
      cases hresult : (decode socketProtocol headerDesc header wireValue).2 with
      | fault f =>
          rw [hresult] at hdec
          exact fun h => hdec (by rw [Parsed.fault.inj h])
      | ok used => exact nofun
      | err e => exact nofun
      | abort => exact nofun

/-- `parse_request` follows no NULL descriptor. -/
theorem parseRequest_noNull (services : List ServiceDesc) (buf : Bytes)
    (wireValue : UInt64) :
    parseRequest services buf wireValue ≠ .fault .nullDesc := by
  rcases parseRequest_cases services buf wireValue with herr | ⟨header, hframe⟩
  · rw [herr]
    exact nofun
  · obtain ⟨n, m, -, heq⟩ := parseRequest_holds services hframe wireValue
    rw [heq]
    exact parseHeader_noNull header _ wireValue

/-- What it finds is in the list. -/
theorem parseRequest_inList {info : HeaderInfo}
    (h : parseRequest services buf wireValue = .ok info) :
    info.InList services := by
  rcases parseRequest_cases services buf wireValue with herr | ⟨header, hframe⟩
  · rw [herr] at h
    cases h
  · obtain ⟨n, m, -, heq⟩ := parseRequest_holds services hframe wireValue
    obtain ⟨events, used, -, hfields⟩ := parseHeader_ok.mp (heq.symm.trans h)
    refine handleFields_inList ⟨fun i hi => ?_, fun m' hm' => ?_⟩ hfields
    · cases hi
    · cases hm'

/-- A request is parsed without a method exactly if the frame names none. -/
theorem parseRequest_none_iff :
    (∃ info, parseRequest services buf wireValue = .ok info ∧
        info.methodDesc = none) ↔ NamesNoMethod services buf wireValue := by
  constructor
  · intro h
    obtain ⟨info, hparse, hnone⟩ := h
    rcases parseRequest_cases services buf wireValue with
      herr | ⟨header, hframe⟩
    · rw [herr] at hparse
      cases hparse
    · obtain ⟨n, m, -, heq⟩ := parseRequest_holds services hframe wireValue
      obtain ⟨events, used, hdec, hfields⟩ :=
        parseHeader_ok.mp (heq.symm.trans hparse)
      exact ⟨header, events, used, hframe, hdec,
        (misses_of_handleFields hfields hnone).2⟩
  · intro h
    obtain ⟨header, events, used, hframe, hdec, hmisses⟩ := h
    obtain ⟨n, m, -, heq⟩ := parseRequest_holds services hframe wireValue
    have hservice : (⟨0, none, none, n, m⟩ : HeaderInfo).serviceDesc = none :=
      rfl
    obtain ⟨info, hfields, hnone⟩ := handleFields_of_misses hmisses hservice
    exact ⟨info, heq.trans (parseHeader_ok.mpr ⟨events, used, hdec, hfields⟩),
      hnone⟩

-- =================================================================== calls

/-- A call survives exactly if nothing comes, or the buffer does not hold a
frame that names no method. -/
theorem survives_call (server : Server σ) (c : ConnCall σ) :
    (c.outcome server).Survives server.services ↔
      (c.chunk ≠ [] →
        ¬ NamesNoMethod server.services c.buffer c.locals.wireValue) := by
  rw [← parseRequest_none_iff]
  unfold ConnCall.outcome ConnCall.buffer handleConnection
  by_cases hchunk : c.chunk = []
  · rw [if_pos (List.length_eq_zero_iff.mpr hchunk)]
    refine iff_of_true ⟨fun conn arg actions m reqDesc req resDesc h hmem => ?_,
      nofun⟩ fun h => absurd hchunk h
    obtain ⟨-, -, rfl⟩ := Handled.done.inj h
    cases List.mem_singleton.mp hmem
  · rw [if_neg fun h => hchunk (List.length_eq_zero_iff.mp h)]
    simp only
    cases hparse : parseRequest server.services
        (c.conn.received ++ c.chunk) c.locals.wireValue with
    | abort => exact iff_of_true ⟨nofun, nofun⟩ fun _ h => by simp at h
    | err =>
        refine iff_of_true ⟨fun conn arg actions m reqDesc req resDesc h hmem =>
          ?_, nofun⟩ fun _ h => by simp at h
        obtain ⟨-, -, rfl⟩ := Handled.done.inj h
        cases hmem
    | fault f =>
        have hnull := parseRequest_noNull server.services
          (c.conn.received ++ c.chunk) c.locals.wireValue
        rw [hparse] at hnull
        exact iff_of_true ⟨nofun, fun h => hnull (by rw [Handled.fault.inj h])⟩
          fun _ h => by simp at h
    | ok info =>
        have hlist := parseRequest_inList hparse
        cases hmethod : info.methodDesc with
        | none =>
            exact iff_of_false (fun h => h.noNull (by simp [hmethod]))
              fun h => h hchunk ⟨info, rfl, hmethod⟩
        | some m =>
            refine iff_of_true ?_ fun _ h => ?_
            · have hm := hlist.method m hmethod
              simp only [hmethod]
              obtain ⟨bytes, hbytes⟩ := sendResponse_total c.locals
                (server.callHandler c.arg m (server.method m).reqDesc
                  (((c.conn.received ++ c.chunk).drop info.headerLen).take
                    info.msgLen) (server.method m).resDesc).2
              rw [hbytes]
              refine ⟨fun conn arg actions m' reqDesc req resDesc h hmem => ?_,
                nofun⟩
              obtain ⟨-, -, rfl⟩ := Handled.done.inj h
              simp only [List.mem_cons, List.not_mem_nil, or_false] at hmem
              rcases hmem with heq | heq
              · obtain ⟨rfl, -, -, -⟩ := Action.call.inj heq
                exact hm
              · cases heq
            · obtain ⟨info', heq, hnone⟩ := h
              obtain rfl := Parsed.ok.inj heq
              rw [hmethod] at hnone
              cases hnone

/-- The server survives a run if and only if in no call the buffer holds a
whole frame whose header is decoded and names no method of the list. -/
theorem survives_iff (server : Server σ) (len : Nat) (arg : σ)
    (chunks : List (Locals × Bytes)) :
    (∀ c ∈ served server ⟨[], len, true⟩ arg chunks,
        (c.outcome server).Survives server.services) ↔
      ∀ c ∈ served server ⟨[], len, true⟩ arg chunks, c.chunk ≠ [] →
        ¬ NamesNoMethod server.services c.buffer c.locals.wireValue :=
  forall₂_congr fun c _ => survives_call server c

/-- A response, sent to a server. -/
def strayResponse : Bytes := frameBytes [0x08, 0x01] []

/-- A response sent to the server, which has no method for it. -/
theorem response_kills_server :
    ∃ c ∈ served pingServer ⟨[], 1024, true⟩ () [(freshLocals, strayResponse)],
      c.outcome pingServer = .fault .nullDesc ∧
        ¬ (c.outcome pingServer).Survives pingServer.services := by
  have hparse : parseRequest pingServer.services strayResponse 0
      = .ok ⟨1, none, none, 14, 0⟩ := by decide +kernel
  have hfault : handleConnection pingServer freshLocals ⟨[], 1024, true⟩ ()
      strayResponse = .fault .nullDesc := by
    unfold handleConnection
    rw [if_neg (by decide)]
    simp only [List.nil_append]
    rw [show freshLocals.wireValue = 0 from rfl, hparse]
  exact ⟨⟨freshLocals, ⟨[], 1024, true⟩, (), strayResponse⟩, .head _, hfault,
    fun h => h.noNull hfault⟩

end Lwpb
