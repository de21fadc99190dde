/-
Reading a request frame.

`Names` says which method a pair of names denotes in a service list, as
the wire format has it: the first service of the name, and its first
method of the name. A well-formed request is a frame whose header gives
the type `REQUEST` and such a pair, in any order and as often as it
likes, among unknown fields; keys and lengths may be any varints.

Before all of such a frame is there, `parse_request` asks for more
(`parseRequest_short`). A frame that is there it reads off the head of the
buffer, as long as the unknown fields of the header stand in front of the
known ones (`parseRequest_complete`): the decoder reports an unknown field
behind a known one as that one again, and the handler then looks its
content up as a name. Whether the method is found depends on the order of
the known fields too: the handler looks a method up in the service it
knows by then, so a method name that has no service name in front of it is
passed over.
-/
import Lwpb.Rpc.Socket
import Lwpb.Proofs.Decoder.Trees
import Lwpb.Proofs.Encoder.Serialise

namespace Lwpb

open Memory Slice

variable {services : List ServiceDesc} {data : Bytes}

-- =================================================================== names

/-- The method these names denote. -/
def Names (services : List ServiceDesc) (service method : Bytes)
    (m : MethodRef) : Prop :=
  services.findIdx? (fun s => service == cstr s.name) = some m.service ∧
    (services.getD m.service ⟨[], []⟩).methods.findIdx?
      (fun d => method == cstr d.name) = some m.method

/-- A comparison of as many bytes as the C string has compares the strings. -/
theorem strncmpEq_iff {a b : Bytes} (h : a.length = strlen b) :
    strncmpEq a.length a b = true ↔ a = cstr b := by
  induction a generalizing b with
  | nil =>
      have hnil : cstr b = [] := List.length_eq_zero_iff.mp h.symm
      rw [hnil]
      exact ⟨fun _ => rfl, fun _ => rfl⟩
  | cons x a ih =>
      cases b with
      | nil => cases h
      | cons y b =>
          by_cases hy : y = 0
          · have hlen : strlen (y :: b) = 0 := by
              rw [hy]
              rfl
            rw [hlen] at h
            cases h
          · have hne : (y != 0) = true := bne_iff_ne.mpr hy
            have hcstr : cstr (y :: b) = y :: cstr b :=
              List.takeWhile_cons_of_pos hne
            have hlen : a.length = strlen b := by
              have hy' : strlen (y :: b) = strlen b + 1 :=
                congrArg List.length hcstr
              rw [hy', List.length_cons] at h
              exact Nat.succ.inj h
            rw [hcstr, List.cons.injEq, ← ih hlen, List.length_cons]
            show (if x ≠ y then false
              else if x = 0 then true else strncmpEq a.length a b) = true ↔ _
            by_cases hxy : x = y
            · subst hxy
              rw [if_neg (fun h => h rfl), if_neg hy]
              exact ⟨fun h => ⟨rfl, h⟩, fun h => h.2⟩
            · rw [if_pos hxy]
              exact ⟨fun h => absurd h Bool.false_ne_true,
                fun h => absurd h.1 hxy⟩

/-- A name in the header is compared as a whole: its length with that of the C
string, and then the bytes. -/
theorem isName_eq {s : Span} (name : Bytes)
    (h : ∃ q, s.data = some q ∧ q + s.len ≤ data.length) :
    isName data s name = .ok (spanBytes data s == cstr name) := by
  have hlen := spanBytes_length h
  obtain ⟨q, hq, -⟩ := h
  unfold isName
  by_cases hname : s.len = strlen name
  · rw [if_neg (fun hne => hne hname)]
    have hiff := strncmpEq_iff (hlen.trans hname)
    rw [hlen] at hiff
    by_cases hzero : s.len = 0
    · have hboth : spanBytes data s = cstr name := by
        rw [← hiff, hzero]
        rfl
      rw [if_pos hzero, hboth, beq_self_eq_true]
    · rw [if_neg hzero, hq]
      refine congrArg Outcome.ok ?_
      rw [Bool.eq_iff_iff, beq_iff_eq]
      exact hiff
  · rw [if_pos hname]
    refine congrArg Outcome.ok (beq_eq_false_iff_ne.mpr ?_).symm
    intro heq
    exact hname (hlen.symm.trans (congrArg List.length heq))

/-- So the first entry of a list with this name is found. -/
theorem findName_eq {s : Span}
    (h : ∃ q, s.data = some q ∧ q + s.len ≤ data.length)
    (names : List Bytes) (i : Nat) :
    findName data s i names = .ok
      ((names.findIdx? fun n => spanBytes data s == cstr n).map (i + ·)) := by
  induction names generalizing i with
  | nil => rfl
  | cons name names ih =>
      rw [findName, isName_eq name h, Outcome.ok_bind, List.findIdx?_cons]
      cases spanBytes data s == cstr name with
      | true => rfl
      | false =>
          rw [if_neg Bool.false_ne_true, if_neg Bool.false_ne_true, ih,
            Option.map_map]
          refine congrArg (fun g => Outcome.ok (Option.map g _)) ?_
          funext j
          show i + 1 + j = i + (j + 1)
          omega

-- ================================================================= handlers

/-- A reported value is one that was read from the input. -/
theorem resolve_field {e : Event Span} {m : MsgRef} {f : FieldRef}
    {v : Value Bytes} {packed : Bool}
    (h : e.resolve data = .field m f (some v) packed) :
    ∃ w, e = .field m f (some w) packed ∧ w.map (spanBytes data) = v := by
  cases e with
  | field m' f' v' packed' =>
      obtain ⟨rfl, rfl, hv, rfl⟩ := Event.field.inj h
      obtain ⟨w, rfl, hw⟩ := Option.map_eq_some_iff.mp hv
      exact ⟨w, rfl, hw⟩
  | msgStart m' packed' => cases h
  | msgEnd m' packed' => cases h

/-- Only a string is reported as a string. -/
theorem map_string {v : Value Span} {str : Bytes}
    (h : v.map (spanBytes data) = .string str) :
    ∃ s, v = .string s ∧ spanBytes data s = str := by
  cases v with
  | string s => exact ⟨s, rfl, Value.string.inj h⟩
  | _ => cases h

/-- Only an enum is reported as an enum. -/
theorem map_enum {v : Value Span} {n : Int32}
    (h : v.map (spanBytes data) = .enum n) : v = .enum n := by
  cases v with
  | enum k => rw [Value.enum.inj h]
  | _ => cases h

/-- A service field sets the service of that name. -/
theorem lookupService_eq {s : Span} {i : Nat} (info : HeaderInfo)
    (h : ∃ q, s.data = some q ∧ q + s.len ≤ data.length)
    (hname : services.findIdx?
      (fun d => spanBytes data s == cstr d.name) = some i) :
    lookupService services data s info
      = .ok { info with serviceDesc := some i } := by
  rw [lookupService, findName_eq h, Outcome.ok_bind, List.findIdx?_map]
  have hname' : services.findIdx?
      ((fun n => spanBytes data s == cstr n) ∘ (·.name)) = some i := hname
  rw [hname', Option.map_some, Nat.zero_add]

/-- A method field sets the method of that name in the service that was set
before. -/
theorem lookupMethod_eq {s : Span} {i j : Nat} {info : HeaderInfo}
    (h : ∃ q, s.data = some q ∧ q + s.len ≤ data.length)
    (hservice : info.serviceDesc = some i)
    (hname : (services.getD i ⟨[], []⟩).methods.findIdx?
      (fun d => spanBytes data s == cstr d.name) = some j) :
    lookupMethod services data s info
      = .ok { info with methodDesc := some ⟨i, j⟩ } := by
  rw [lookupMethod, hservice]
  show (findName data s 0 _ >>= _) = _
  rw [findName_eq h, Outcome.ok_bind, List.findIdx?_map]
  have hname' : (services.getD i ⟨[], []⟩).methods.findIdx?
      ((fun n => spanBytes data s == cstr n) ∘ (·.name)) = some j := hname
  rw [hname', Option.map_some, Nat.zero_add]

/-- No method is looked up while the service is not known. -/
theorem lookupMethod_unknown {s : Span} {info : HeaderInfo}
    (hservice : info.serviceDesc = none) :
    lookupMethod services data s info = .ok info := by
  rw [lookupMethod, hservice]

/-- The handler looks at fields only. -/
theorem handler_other {e : Event Span} {info : HeaderInfo}
    (h : ∀ m f v packed, e ≠ .field m f v packed) :
    parseRequestFieldHandler services data info e = .ok info := by
  cases e with
  | field m f v packed => exact absurd rfl (h m f v packed)
  | msgStart m packed => rfl
  | msgEnd m packed => rfl

/-- Notifications are handled one after the other. -/
theorem handleFields_append (info : HeaderInfo) (a b : List (Event Span)) :
    handleFields services data info (a ++ b)
      = handleFields services data info a >>=
        fun info => handleFields services data info b := by
  induction a generalizing info with
  | nil => rfl
  | cons e a ih =>
      rw [List.cons_append, handleFields, handleFields]
      cases parseRequestFieldHandler services data info e with
      | ok info' => exact ih info'
      | err r => rfl
      | fault f => rfl

/-- The second field of a header is the service. -/
theorem handler_service (s : Span) (info : HeaderInfo) (packed : Bool) :
    parseRequestFieldHandler services data info
        (.field headerDesc headerService (some (.string s)) packed)
      = lookupService services data s info := by
  simp only [parseRequestFieldHandler]
  rw [if_neg (fun h => h rfl), if_pos trivial]

/-- The third one is the method. -/
theorem handler_method (s : Span) (info : HeaderInfo) (packed : Bool) :
    parseRequestFieldHandler services data info
        (.field headerDesc headerMethod (some (.string s)) packed)
      = lookupMethod services data s info := by
  simp only [parseRequestFieldHandler]
  rw [if_neg (fun h => h rfl), if_neg (by decide), if_pos trivial]

/-- A notification that was handled, and the rest. -/
theorem handleFields_cons {e : Event Span} {out : List (Event Span)}
    {info info' : HeaderInfo}
    (h : parseRequestFieldHandler services data info e = .ok info') :
    handleFields services data info (e :: out)
      = handleFields services data info' out := by
  rw [handleFields, h, Outcome.ok_bind]

/-- The calls of a header come after its start and before its end. -/
theorem Reports.header {out : List (Event Span)} {es : List (Event Bytes)}
    (h : Reports data out
      (.msgStart headerDesc false :: es ++ [.msgEnd headerDesc false])) :
    ∃ fields, Reports data fields es ∧ ∀ info,
      handleFields services data info out
        = handleFields services data info fields := by
  obtain ⟨hres, hin⟩ := h
  obtain ⟨e, out, rfl, he, hres⟩ := List.map_eq_cons_iff.mp hres
  obtain ⟨fields, last, rfl, hfields, hlast⟩ := List.map_eq_append_iff.mp hres
  have hlast' : last.map (Event.resolve data)
      = [Event.msgEnd headerDesc false] := hlast
  obtain ⟨e', rfl, he'⟩ := List.map_eq_singleton_iff.mp hlast'
  refine ⟨fields, ⟨hfields, fun x hx => hin x
    (List.mem_cons_of_mem e (List.mem_append_left _ hx))⟩, fun info => ?_⟩
  have hlastOk : ∀ info : HeaderInfo,
      handleFields services data info [e'] = .ok info := fun info =>
    handleFields_cons
      (handler_other (fun _ _ _ _ h => by rw [h] at he'; cases he'))
  rw [handleFields_cons
    (handler_other (fun _ _ _ _ h => by rw [h] at he; cases he)),
    handleFields_append]
  cases handleFields services data info fields with
  | ok info' => exact hlastOk info'
  | err e => rfl
  | fault f => rfl

/-- The fields of a request header. -/
inductive HeaderField where
  | type
  | service
  | method
  deriving Repr, DecidableEq

/-- What the decoder reports of one. -/
def HeaderField.notif (service method : Bytes) : HeaderField → Event Bytes
  | .type => .field headerDesc headerType
      (some (.enum protocolRequest)) false
  | .service => .field headerDesc headerService
      (some (.string service)) false
  | .method => .field headerDesc headerMethod
      (some (.string method)) false

/-- What the decoder reports of a request header. -/
def requestNotifs (service method : Bytes) (fields : List HeaderField) :
    List (Event Bytes) :=
  .msgStart headerDesc false :: fields.map (HeaderField.notif service method)
    ++ [.msgEnd headerDesc false]

/-- A method field stands behind a service field; `seen` says that a
service field came before. -/
def methodFound : (seen : Bool) → List HeaderField → Bool
  | _, [] => false
  | seen, .type :: fields => methodFound seen fields
  | _, .service :: fields => methodFound true fields
  | seen, .method :: fields => seen || methodFound seen fields

/-- What the handler makes of the fields that come next. -/
structure LooksUp (m : MethodRef) (seen : Bool) (fields : List HeaderField)
    (info info' : HeaderInfo) : Prop where
  headerLen : info'.headerLen = info.headerLen
  msgLen : info'.msgLen = info.msgLen
  methodDesc : info'.methodDesc
    = if methodFound seen fields then some m else info.methodDesc

/-- The handler finds the method if the service came first. -/
theorem handleFields_fields {out : List (Event Span)}
    {service method : Bytes} {m : MethodRef} {fields : List HeaderField}
    {seen : Bool} {info : HeaderInfo}
    (hout : Reports data out (fields.map (HeaderField.notif service method)))
    (hnames : Names services service method m)
    (hseen : info.serviceDesc = if seen then some m.service else none) :
    ∃ info', handleFields services data info out = .ok info' ∧
      LooksUp m seen fields info info' := by
  induction fields generalizing out seen info with
  | nil =>
      have hnil : out = [] := List.map_eq_nil_iff.mp hout.resolves
      subst hnil
      exact ⟨info, rfl, rfl, rfl, rfl⟩
  | cons field fields ih =>
      obtain ⟨e, out, rfl, he, hres⟩ := List.map_eq_cons_iff.mp hout.resolves
      have hrest : Reports data out
          (fields.map (HeaderField.notif service method)) :=
        ⟨hres, fun x hx => hout.inInput x (List.mem_cons_of_mem e hx)⟩
      have hin := hout.inInput e List.mem_cons_self
      cases field with
      | type =>
          obtain ⟨v, rfl, hv⟩ := resolve_field he
          have hv := map_enum hv
          subst hv
          obtain ⟨info', hret, hheader, hmsg, hdesc⟩ :=
            @ih out seen { info with msgType := protocolRequest } hrest hseen
          exact ⟨info', hret, hheader, hmsg, hdesc⟩
      | service =>
          obtain ⟨v, rfl, hv⟩ := resolve_field he
          obtain ⟨s, rfl, hs⟩ := map_string hv
          have hidx := hnames.1
          rw [← hs] at hidx
          rw [handleFields, handler_service, lookupService_eq _ hin hidx,
            Outcome.ok_bind]
          obtain ⟨info', hret, hheader, hmsg, hdesc⟩ := @ih out true
            { info with serviceDesc := some m.service } hrest rfl
          exact ⟨info', hret, hheader, hmsg, hdesc⟩
      | method =>
          obtain ⟨v, rfl, hv⟩ := resolve_field he
          obtain ⟨s, rfl, hs⟩ := map_string hv
          have hidx := hnames.2
          rw [← hs] at hidx
          rw [handleFields, handler_method]
          cases seen with
          | true =>
              rw [lookupMethod_eq hin hseen hidx, Outcome.ok_bind]
              obtain ⟨info', hret, hheader, hmsg, hdesc⟩ :=
                @ih out true { info with methodDesc := some m } hrest hseen
              refine ⟨info', hret, hheader, hmsg, hdesc.trans ?_⟩
              show (if _ then some m else some m) = some m
              rw [ite_self]
          | false =>
              rw [lookupMethod_unknown hseen, Outcome.ok_bind]
              obtain ⟨info', hret, hheader, hmsg, hdesc⟩ := ih hrest hseen
              exact ⟨info', hret, hheader, hmsg, hdesc⟩

/-- The start and the end of the header do nothing. -/
theorem handleFields_request {out : List (Event Span)}
    {service method : Bytes} {m : MethodRef} {fields : List HeaderField}
    {info : HeaderInfo}
    (hout : Reports data out (requestNotifs service method fields))
    (hnames : Names services service method m)
    (hinfo : info.serviceDesc = none) :
    ∃ info', handleFields services data info out = .ok info' ∧
      LooksUp m false fields info info' := by
  obtain ⟨inner, hinner, heq⟩ := Reports.header hout
  rw [heq]
  exact handleFields_fields hinner hnames hinfo

-- ================================================================== frames

/-- A request on the wire, the method it is for, and the fields of its
header. -/
structure Request where
  method : MethodRef
  fields : List HeaderField
  header : Wire
  payload : Bytes
  deriving Repr, DecidableEq

def Request.bytes (r : Request) : Bytes :=
  frameBytes r.header.bytes r.payload

/-- The request is for a method of the list. -/
structure Request.WellFormed (services : List ServiceDesc) (r : Request) :
    Prop where
  header : r.header.WellFormed socketProtocol typed headerDesc
  names : ∃ service method, r.header.report socketProtocol headerDesc
      = requestNotifs service method r.fields ∧
    Names services service method r.method
  complete : ∀ f : HeaderField, f ∈ r.fields
  header_lt : r.header.bytes.length < 2 ^ 32
  payload_lt : r.payload.length < 2 ^ 32

/-- The unknown fields of the header stand in front of the known ones. -/
def Request.Leads (r : Request) : Prop :=
  r.header.Leading socketProtocol false headerDesc

instance (r : Request) : Decidable r.Leads :=
  inferInstanceAs (Decidable (r.header.Leading ..))

/-- A request whose method the server finds: in a header that it reads as
it is meant, a method field behind a service field. -/
structure Request.Found (services : List ServiceDesc) (r : Request) : Prop
    extends r.WellFormed services where
  leads : r.Leads
  found : methodFound false r.fields = true

/-- The fields of a header open no frames. -/
theorem header_flat {n : Nat} {f : FieldRef}
    (h : socketProtocol.known headerDesc n = some f) :
    (socketProtocol.field f).opts.typ.isMessage = false ∧
      (socketProtocol.field f).isPackedRepeated = false := by
  obtain ⟨i, hi, rfl⟩ := Option.map_eq_some_iff.mp h
  obtain ⟨hlt, -⟩ := List.findIdx?_eq_some_iff_getElem.mp hi
  have hi : i = 0 ∨ i = 1 ∨ i = 2 := by
    have hlt : i < 3 := hlt
    omega
  rcases hi with rfl | rfl | rfl <;> exact ⟨rfl, rfl⟩

/-- A header is one frame. -/
theorem header_nesting {w : Wire}
    (h : w.WellFormed socketProtocol typed headerDesc) : w.nesting = 1 := by
  induction w with
  | nil => rfl
  | unknown key p rest ih => exact ih h.2.2.2
  | scalar f key p rest ih => exact ih h.2.2.2.2.2
  | sub f key len body rest =>
      obtain ⟨-, -, hknown, -, hmsg, -⟩ := h
      rw [(header_flat hknown).1] at hmsg
      cases hmsg
  | run f key len elems rest =>
      obtain ⟨-, -, hknown, hrun, -⟩ := h
      rw [(header_flat hknown).2] at hrun
      cases hrun

/-- A word of the pre-header has four bytes. -/
@[simp] theorem htonl_length (n : UInt32) : (htonl n).length = 4 := by
  rw [htonl, List.length_reverse, leBytes_length]

/-- It is read as it was written. -/
theorem ntohl_htonl (n : UInt32) : ntohl (htonl n) = n := by
  apply UInt32.toNat_inj.mp
  rw [ntohl, htonl, List.reverse_reverse, le_leBytes, UInt32.toNat_ofNat']
  have hlt := n.toNat_lt
  omega

/-- The pre-header has three words. -/
theorem preHeader_length (h p : Nat) : (preHeader h p).length = 12 := by
  simp [preHeader]

/-- A frame is the pre-header, the header and the payload. -/
theorem frameBytes_length (header payload : Bytes) :
    (frameBytes header payload).length
      = header.length + 12 + payload.length := by
  simp [frameBytes, preHeader_length]
  omega

/-- The three numbers, read back. -/
theorem preHeader_read (h p : Nat) (x : Bytes) :
    ntohl ((preHeader h p ++ x).take 4) = protocolMagic ∧
      ntohl (((preHeader h p ++ x).drop 4).take 4) = UInt32.ofNat h ∧
      ntohl (((preHeader h p ++ x).drop 8).take 4) = UInt32.ofNat p := by
  have hsplit : preHeader h p ++ x = htonl protocolMagic ++
      (htonl (UInt32.ofNat h) ++ (htonl (UInt32.ofNat p) ++ x)) := by
    rw [preHeader, List.append_assoc, List.append_assoc]
  have htake : ∀ (n : UInt32) (y : Bytes), (htonl n ++ y).take 4 = htonl n :=
    fun n y => List.take_left' (htonl_length n)
  have hdrop : ∀ (n : UInt32) (y : Bytes), (htonl n ++ y).drop 4 = y :=
    fun n y => List.drop_left' (htonl_length n)
  rw [hsplit, htake, hdrop, htake]
  refine ⟨ntohl_htonl _, ntohl_htonl _, ?_⟩
  have hdrop8 : ∀ y : Bytes, y.drop 8 = (y.drop 4).drop 4 :=
    fun y => by rw [List.drop_drop]
  rw [hdrop8, hdrop, hdrop, htake, ntohl_htonl]

/-- A whole frame is parsed to what its header is handled to. -/
theorem parseRequest_frame {header payload : Bytes} {out : List (Event Span)}
    {wireValue : UInt64} {used : Nat} {info : HeaderInfo}
    (hheader : header.length < 2 ^ 32) (hpayload : payload.length < 2 ^ 32)
    (hdec : Decodes socketProtocol headerDesc header wireValue out (.ok used))
    (hfields : handleFields services header
      ⟨0, none, none, header.length + 12, payload.length⟩ out = .ok info)
    (rest : Bytes) :
    parseRequest services (frameBytes header payload ++ rest) wireValue
      = .ok info := by
  have hbytes : frameBytes header payload ++ rest
      = preHeader header.length payload.length
        ++ (header ++ (payload ++ rest)) := by
    rw [frameBytes, List.append_assoc, List.append_assoc]
  obtain ⟨hmagic, hlen, hmsg⟩ := preHeader_read header.length payload.length
    (header ++ (payload ++ rest))
  have hheaderLen : (UInt32.ofNat header.length).toNat = header.length :=
    UInt32.toNat_ofNat_of_lt' hheader
  have hpayloadLen : (UInt32.ofNat payload.length).toNat = payload.length :=
    UInt32.toNat_ofNat_of_lt' hpayload
  have htotal : (preHeader header.length payload.length
      ++ (header ++ (payload ++ rest))).length
        = header.length + 12 + payload.length + rest.length := by
    rw [← hbytes, List.length_append, frameBytes_length]
  have htake : ((preHeader header.length payload.length
      ++ (header ++ (payload ++ rest))).drop preHeaderSize).take
        header.length = header := by
    have hdrop : (preHeader header.length payload.length
        ++ (header ++ (payload ++ rest))).drop preHeaderSize
          = header ++ (payload ++ rest) :=
      List.drop_left' (preHeader_length ..)
    rw [hdrop]
    exact List.take_left' rfl
  unfold parseRequest
  rw [hbytes, hmagic, hlen, hmsg, if_neg (by
    rw [htotal]
    show ¬ _ < 12
    omega), if_neg fun h => h rfl]
  simp only [hheaderLen, hpayloadLen, htake, hdec.decode_eq]
  rw [if_neg (by
    rw [htotal]
    show ¬ _ < header.length + 12 + payload.length
    omega)]
  rw [show header.length + preHeaderSize = header.length + 12 from rfl,
    hfields]

/-- A whole request is read. -/
theorem parseRequest_complete {r : Request} (hr : r.WellFormed services)
    (hlead : r.Leads) (rest : Bytes) (wireValue : UInt64) :
    ∃ info, parseRequest services (r.bytes ++ rest) wireValue = .ok info ∧
      info.headerLen = r.header.bytes.length + 12 ∧
      info.msgLen = r.payload.length ∧
      info.methodDesc
        = if methodFound false r.fields then some r.method else none := by
  obtain ⟨service, method, hrep, hnames⟩ := hr.names
  have hdepth : r.header.nesting ≤ maxDepth := by
    rw [header_nesting hr.header]
    decide
  obtain ⟨out, hdec, hout⟩ := decode_wire wireValue hr.header hlead hdepth
  rw [hrep] at hout
  obtain ⟨info, hret, hheaderInfo, hmsgInfo, hdesc⟩ :=
    @handleFields_request services r.header.bytes out service method r.method
      r.fields ⟨0, none, none, r.header.bytes.length + 12, r.payload.length⟩
      hout hnames rfl
  exact ⟨info, parseRequest_frame hr.header_lt hr.payload_lt hdec hret rest,
    hheaderInfo, hmsgInfo, hdesc⟩

/-- Of a part of a frame nothing is read. -/
theorem parseRequest_short {header payload buf rest : Bytes}
    (hheader : header.length < 2 ^ 32) (hpayload : payload.length < 2 ^ 32)
    (hpre : buf <+: frameBytes header payload ++ rest)
    (hlt : buf.length < (frameBytes header payload).length)
    (wireValue : UInt64) :
    parseRequest services buf wireValue = .err := by
  unfold parseRequest
  by_cases hshort : buf.length < preHeaderSize
  · rw [if_pos hshort]
  · rw [if_neg hshort]
    have hbytes : frameBytes header payload ++ rest
        = preHeader header.length payload.length
          ++ (header ++ (payload ++ rest)) := by
      simp [frameBytes]
    rw [hbytes] at hpre
    obtain ⟨x, rfl⟩ : ∃ x, buf = preHeader header.length payload.length
        ++ x := by
      have hprefix : preHeader header.length payload.length <+: buf := by
        apply List.prefix_of_prefix_length_le (List.prefix_append ..) hpre
        rw [preHeader_length]
        exact Nat.not_lt.mp hshort
      obtain ⟨x, hx⟩ := hprefix
      exact ⟨x, hx.symm⟩
    obtain ⟨hmagic, hread, hread'⟩ := preHeader_read header.length
      payload.length x
    have hheaderLen : (UInt32.ofNat header.length).toNat = header.length :=
      UInt32.toNat_ofNat_of_lt' hheader
    have hpayloadLen : (UInt32.ofNat payload.length).toNat
        = payload.length := UInt32.toNat_ofNat_of_lt' hpayload
    rw [hmagic, hread, hread', if_neg (fun h => h rfl)]
    simp only [hheaderLen, hpayloadLen]
    rw [if_pos]
    rw [frameBytes_length] at hlt
    exact hlt

-- ================================================================= sending

/-- A message stays open behind what was written into it. -/
theorem Enc.Open.written {s : Enc} {m : MsgRef} {w : Written}
    (hs : s.Open m) (hw : Writes s.mem s.top.buf w) :
    (s.written w).Open m := by
  refine ⟨hs.started, hs.packed, ?_, ?_, ?_⟩
  · rw [Enc.written_top]
    exact hs.described
  · rw [Enc.written_top]
    exact hw.ordered hs.ordered
  · have hsmall := hs.small
    have hpos := hw.pos_le
    rw [Enc.written_top]
    show w.buf.stop < w.buf.pos + 2 ^ 35
    rw [hw.stop]
    omega

/-- Values are added to an open message whatever the calls return. -/
theorem runActs_total {sch : Schema} {m : MsgRef} {s : Enc}
    {acts : List (Scratch × Act)} (hs : s.Open m)
    (hacts : ∀ a ∈ acts, ∃ f v, a.2 = .add f v ∧ sch.owns m f = true) :
    ∃ t, (runActs sch s acts).2 = some t := by
  induction acts generalizing s with
  | nil => exact ⟨s, rfl⟩
  | cons a acts ih =>
      obtain ⟨u, act⟩ := a
      obtain ⟨f, v, hact, hf⟩ := hacts _ List.mem_cons_self
      have hact : act = .add f v := hact
      obtain ⟨w, hw, hret⟩ := @encodeField_writes sch u.wireValue s
        hs.ordered f (v.raw u.value)
      have hrun : act.run sch u s = .ret w.err (s.written w) := by
        rw [hact, ← hret, ← addField_open hs hf]
        exact addValue_eq ..
      obtain ⟨t, ht⟩ := ih (hs.written hw) fun a ha =>
        hacts a (List.mem_cons_of_mem _ ha)
      refine ⟨t, ?_⟩
      rw [runActs, runSteps, hrun]
      exact ht

/-- Locals of a first call. -/
def freshLocals : Locals :=
  ⟨freshEncoder, fun _ => ⟨⟨0, .ext fun _ => 0, 0⟩, 0⟩, 0⟩

/-- A header is always encoded. -/
theorem encodeHeader_total (l : Locals) {acts : List Act}
    (hacts : ∀ a ∈ acts, ∃ f v, a = .add f v ∧
      socketProtocol.owns headerDesc f = true) :
    ∃ bytes, encodeHeader l acts = some bytes := by
  have hopen := @encoderStart_open l.encoder headerDesc 0 128 (by decide)
  obtain ⟨t, ht⟩ := @runActs_total socketProtocol _ _
    (acts.map fun a => (l.scratch a, a)) hopen (by
      intro a ha
      obtain ⟨act, hact, rfl⟩ := List.mem_map.mp ha
      exact hacts act hact)
  rw [encodeHeader, ht]
  exact ⟨_, rfl⟩

/-- A response is always sent. -/
theorem sendResponse_total (l : Locals) (res : Bytes) :
    ∃ bytes, sendResponse l res = some bytes := by
  obtain ⟨header, hheader⟩ := @encodeHeader_total l
    [.add headerType (.enum protocolResponse)] (by
      intro a ha
      rw [List.mem_singleton.mp ha]
      exact ⟨_, _, rfl, rfl⟩)
  rw [sendResponse, hheader]
  exact ⟨_, rfl⟩

/-- A request is always sent. -/
theorem sendRequest_total (l : Locals) (service method req : Bytes) :
    ∃ bytes, sendRequest l service method req = some bytes := by
  obtain ⟨header, hheader⟩ := @encodeHeader_total l
    [.add headerType (.enum protocolRequest),
      .add headerService (.string service),
      .add headerMethod (.string method)] (by
      intro a ha
      simp only [List.mem_cons, List.not_mem_nil, or_false] at ha
      rcases ha with rfl | rfl | rfl <;> exact ⟨_, _, rfl, rfl⟩)
  rw [sendRequest, hheader]
  exact ⟨_, rfl⟩

end Lwpb
