/-
What a client and a server see of each other over the direct transport.

`Protocol` is the order in which the handlers of a call run and return:
the request handler first; if it accepts and there is a server, the
server's handler with the request that was written, and if that accepts,
the response handler with the response that was written; and
`done_handler` last, once, with a result that says how far that was. A
request handler that refuses ends the call without a notice, and a call
that is not given its buffers reaches no handler. A script says which calls
are made, what the allocator and the handlers answer in each, and which
calls the handlers make in turn: a word of theirs stands inside each of
them.

Every run of every script is its word, whatever the allocator and the
handlers come to, and its trail of buffers is balanced: each buffer is used
while it is held only, and given back once (`direct_calls_protocol`). Both
are inductions on the script, with one lemma for a call
(`directTransportCall_protocol`, `directTransportCall_balanced`), in which
what was made inside the handlers is a hypothesis.
-/
import Lwpb.Rpc.Direct

namespace Lwpb

open Machine

variable {services : List ServiceDesc} {server : Bool}

-- ============================================================ the property

/-- A call is given both of its buffers. -/
def DirectSys.Granted (sys : DirectSys) : Prop :=
  sys.reqBuf ≠ none ∧ sys.resBuf ≠ none

/-- What is to be seen of the handlers in the calls of a script, of a client
whose transport has a server or not. -/
inductive Protocol (services : List ServiceDesc) (server : Bool) :
    DirectScript → List DirectEvent → Prop where
  | nil : Protocol services server .nil []
  /-- The call is not given its buffers. -/
  | ungranted {m : MethodRef} {sys : DirectSys}
      {inRequest inCall inResponse inDone rest : DirectScript}
      {w : List DirectEvent} : ¬ sys.Granted →
      Protocol services server rest w →
      Protocol services server
        (.call m sys inRequest inCall inResponse inDone rest) w
  /-- The request handler returns an error. -/
  | refused {m : MethodRef} {sys : DirectSys}
      {inRequest inCall inResponse inDone rest : DirectScript}
      {ret : Err} {req : Bytes} {a w : List DirectEvent} : sys.Granted →
      sys.request = (ret, req) → ret ≠ .ok →
      Protocol services server inRequest a →
      Protocol services server rest w →
      Protocol services server
        (.call m sys inRequest inCall inResponse inDone rest)
        (.handler (.request m (methodOf services m).reqDesc) :: a
          ++ .returned ret req :: w)
  /-- There is no server. -/
  | notConnected {m : MethodRef} {sys : DirectSys}
      {inRequest inCall inResponse inDone rest : DirectScript}
      {req : Bytes} {a d w : List DirectEvent} : sys.Granted →
      sys.request = (.ok, req) → server = false →
      Protocol services server inRequest a →
      Protocol services server inDone d →
      Protocol services server rest w →
      Protocol services server
        (.call m sys inRequest inCall inResponse inDone rest)
        (.handler (.request m (methodOf services m).reqDesc) :: a
          ++ .returned .ok req :: .handler (.done m .notConnected) :: d
          ++ w)
  /-- The server's handler, given the request, returns an error. -/
  | failed {m : MethodRef} {sys : DirectSys}
      {inRequest inCall inResponse inDone rest : DirectScript}
      {ret : Err} {req res : Bytes} {a b d w : List DirectEvent} :
      sys.Granted → sys.request = (.ok, req) → server = true →
      sys.called = (ret, res) → ret ≠ .ok →
      Protocol services server inRequest a →
      Protocol services server inCall b →
      Protocol services server inDone d →
      Protocol services server rest w →
      Protocol services server
        (.call m sys inRequest inCall inResponse inDone rest)
        (.handler (.request m (methodOf services m).reqDesc) :: a
          ++ .returned .ok req :: .handler (.call m
            (methodOf services m).reqDesc req (methodOf services m).resDesc)
          :: b
          ++ .returned ret res :: .handler (.done m .failed) :: d ++ w)
  /-- The response handler is given what the server's handler has made of
  the request. -/
  | ok {m : MethodRef} {sys : DirectSys}
      {inRequest inCall inResponse inDone rest : DirectScript}
      {req res : Bytes} {a b c d w : List DirectEvent} : sys.Granted →
      sys.request = (.ok, req) → server = true → sys.called = (.ok, res) →
      Protocol services server inRequest a →
      Protocol services server inCall b →
      Protocol services server inResponse c →
      Protocol services server inDone d →
      Protocol services server rest w →
      Protocol services server
        (.call m sys inRequest inCall inResponse inDone rest)
        (.handler (.request m (methodOf services m).reqDesc) :: a
          ++ .returned .ok req :: .handler (.call m
            (methodOf services m).reqDesc req (methodOf services m).resDesc)
          :: b
          ++ .returned .ok res
          :: .handler (.response m (methodOf services m).resDesc res) :: c
          ++ .returned sys.response [] :: .handler (.done m .ok) :: d ++ w)

/-- What is seen of the handlers. -/
def handlerTrail (es : List DirectEvent) : List DirectEvent :=
  es.filter DirectEvent.ofHandler

@[simp] theorem handlerTrail_append (a b : List DirectEvent) :
    handlerTrail (a ++ b) = handlerTrail a ++ handlerTrail b :=
  List.filter_append ..

@[simp] theorem handlerTrail_handler (c : HandlerCall)
    (es : List DirectEvent) :
    handlerTrail (.handler c :: es) = .handler c :: handlerTrail es := rfl

@[simp] theorem handlerTrail_returned (ret : Err) (written : Bytes)
    (es : List DirectEvent) :
    handlerTrail (.returned ret written :: es)
      = .returned ret written :: handlerTrail es := rfl

@[simp] theorem handlerTrail_buffer (e : Entry Nat)
    (es : List DirectEvent) :
    handlerTrail (.buffer e :: es) = handlerTrail es := rfl

@[simp] theorem handlerTrail_nil : handlerTrail [] = [] := rfl

/-- The handler calls of a run. -/
def handlerCalls (es : List DirectEvent) : List HandlerCall :=
  es.filterMap DirectEvent.handlerCall

/-- The trail of a run. -/
def bufferTrail (es : List DirectEvent) : List (Entry Nat) :=
  es.filterMap DirectEvent.bufferEntry

@[simp] theorem handlerCalls_append (a b : List DirectEvent) :
    handlerCalls (a ++ b) = handlerCalls a ++ handlerCalls b :=
  List.filterMap_append

@[simp] theorem handlerCalls_handler (c : HandlerCall)
    (es : List DirectEvent) :
    handlerCalls (.handler c :: es) = c :: handlerCalls es := rfl

@[simp] theorem handlerCalls_returned (ret : Err) (written : Bytes)
    (es : List DirectEvent) :
    handlerCalls (.returned ret written :: es) = handlerCalls es := rfl

@[simp] theorem handlerCalls_buffer (e : Entry Nat)
    (es : List DirectEvent) :
    handlerCalls (.buffer e :: es) = handlerCalls es := rfl

@[simp] theorem handlerCalls_nil : handlerCalls [] = [] := rfl

@[simp] theorem bufferTrail_append (a b : List DirectEvent) :
    bufferTrail (a ++ b) = bufferTrail a ++ bufferTrail b :=
  List.filterMap_append

@[simp] theorem bufferTrail_handler (c : HandlerCall)
    (es : List DirectEvent) :
    bufferTrail (.handler c :: es) = bufferTrail es := rfl

@[simp] theorem bufferTrail_returned (ret : Err) (written : Bytes)
    (es : List DirectEvent) :
    bufferTrail (.returned ret written :: es) = bufferTrail es := rfl

@[simp] theorem bufferTrail_buffer (e : Entry Nat)
    (es : List DirectEvent) :
    bufferTrail (.buffer e :: es) = e :: bufferTrail es := rfl

@[simp] theorem bufferTrail_nil : bufferTrail [] = [] := rfl

-- =============================================================== one call

/-- What holds of the calls inside every handler. -/
structure Within.All (P : List DirectEvent → Prop) (w : Within) : Prop where
  request : P w.request
  call : P w.call
  response : P w.response
  done : P w.done

variable {m : MethodRef} {sys : DirectSys} {within : Within}
  {inRequest inCall inResponse inDone rest : DirectScript}
  {w : List DirectEvent}

/-- Behind the two allocations the handlers run in order. -/
theorem directExchange_protocol (hgranted : sys.Granted)
    (hrequest : Protocol services server inRequest
      (handlerTrail within.request))
    (hcall : Protocol services server inCall (handlerTrail within.call))
    (hresponse : Protocol services server inResponse
      (handlerTrail within.response))
    (hdone : Protocol services server inDone (handlerTrail within.done))
    (hrest : Protocol services server rest w) (reqBuf resBuf : Nat) :
    Protocol services server
      (.call m sys inRequest inCall inResponse inDone rest)
      (handlerTrail (directExchange services server m sys within reqBuf
        resBuf).1 ++ w) := by
  unfold directExchange
  rcases hreq : sys.request with ⟨ret, req⟩
  by_cases hret : ret = .ok
  · subst hret
    by_cases hserver : server = true
    · rcases hres : sys.called with ⟨ret, res⟩
      by_cases hret : ret = .ok
      · subst hret
        simpa [hserver] using @Protocol.ok services server m sys inRequest
          inCall inResponse inDone rest req res _ _ _ _ _ hgranted hreq
          hserver hres hrequest hcall hresponse hdone hrest
      · simpa [hserver, hret] using @Protocol.failed services server m sys
          inRequest inCall inResponse inDone rest ret req res _ _ _ _
          hgranted hreq hserver hres hret hrequest hcall hdone hrest
    · simpa [hserver] using @Protocol.notConnected services server m sys
        inRequest inCall inResponse inDone rest req _ _ _ hgranted hreq
        (Bool.of_not_eq_true hserver) hrequest hdone hrest
  · simpa [hret] using @Protocol.refused services server m sys inRequest
      inCall inResponse inDone rest ret req _ _ hgranted hreq hret hrequest
      hrest

/-- A call keeps the protocol, if the calls that its handlers make inside do
and what follows does. The cases are those of `direct.c`: which buffers are
granted, and what each handler returns. -/
theorem directTransportCall_protocol
    (hrequest : Protocol services server inRequest
      (handlerTrail within.request))
    (hcall : Protocol services server inCall (handlerTrail within.call))
    (hresponse : Protocol services server inResponse
      (handlerTrail within.response))
    (hdone : Protocol services server inDone (handlerTrail within.done))
    (hrest : Protocol services server rest w) :
    Protocol services server
      (.call m sys inRequest inCall inResponse inDone rest)
      (handlerTrail (directTransportCall services server m sys within).1
        ++ w) := by
  unfold directTransportCall
  cases hreqBuf : sys.reqBuf with
  | none => exact .ungranted (fun h => h.1 hreqBuf) hrest
  | some req =>
      cases hresBuf : sys.resBuf with
      | none => exact .ungranted (fun h => h.2 hresBuf) hrest
      | some res =>
          have hgranted : sys.Granted := by
            refine ⟨?_, ?_⟩
            · rw [hreqBuf]
              exact Option.some_ne_none req
            · rw [hresBuf]
              exact Option.some_ne_none res
          simpa using @directExchange_protocol services server m sys within
            inRequest inCall inResponse inDone rest w hgranted hrequest hcall
            hresponse hdone hrest req.1 res.1

/-- Behind the two allocations the buffers are used, and stay. -/
theorem directExchange_balanced {own : Multiset Nat} {reqBuf resBuf : Nat}
    (h : within.All fun es => Balanced 0 (bufferTrail es))
    (hreq : reqBuf ∈ own) (hres : resBuf ∈ own) :
    Balanced own (bufferTrail (directExchange services server m sys within
      reqBuf resBuf).1) := by
  obtain ⟨hrequest, hcall, hresponse, hdone⟩ := h
  have hrequested : Balanced own
      (bufferTrail within.request ++ [.use reqBuf]) :=
    hrequest.of_zero.append (.use hreq)
  have hcalled : Balanced own (bufferTrail within.request ++ [.use reqBuf]
      ++ (.use reqBuf :: bufferTrail within.call ++ [.use resBuf])) :=
    hrequested.append
      (((Balanced.use hreq).append hcall.of_zero).append (.use hres))
  unfold directExchange
  by_cases hret : sys.request.1 = .ok
  · cases server with
    | false => simpa [hret] using hrequested.append hdone.of_zero
    | true =>
        by_cases hret' : sys.called.1 = .ok
        · have hok := hcalled.append
            (((Balanced.use hres).append hresponse.of_zero).append
              hdone.of_zero)
          simpa [hret, hret'] using hok
        · simpa [hret, hret'] using hcalled.append hdone.of_zero
  · simpa [hret] using hrequested

/-- A call gives back the buffers it got, in every case. -/
theorem directTransportCall_balanced
    (h : within.All fun es => Balanced 0 (bufferTrail es)) :
    Balanced 0 (bufferTrail (directTransportCall services server m sys
      within).1) := by
  unfold directTransportCall
  cases hreqBuf : sys.reqBuf with
  | none => exact .nil
  | some req =>
      cases hresBuf : sys.resBuf with
      | none => exact Balanced.nil.hold
      | some res =>
          obtain ⟨reqBuf, -⟩ := req
          obtain ⟨resBuf, -⟩ := res
          have hreq : reqBuf ∈ reqBuf ::ₘ resBuf ::ₘ (0 : Multiset Nat) :=
            Multiset.mem_cons_self _ _
          have hres : resBuf ∈ reqBuf ::ₘ resBuf ::ₘ (0 : Multiset Nat) :=
            Multiset.mem_cons_of_mem (Multiset.mem_cons_self _ _)
          simpa using (@directExchange_balanced services server m sys within
            _ reqBuf resBuf h hreq hres).hold_both

-- ==================================================================== runs

/-- Whatever calls are made, inside handlers or not, the handlers are run
in order, each with what the one before has written, and no buffer is used
behind its release or kept: each is released as often as it was
allocated. -/
theorem direct_calls_protocol (services : List ServiceDesc) (server : Bool)
    (script : DirectScript) :
    Protocol services server script
        (handlerTrail (script.run services server)) ∧
      Balanced 0 (bufferTrail (script.run services server)) ∧
      ∀ b, (bufferTrail (script.run services server)).count (.release b)
        = (bufferTrail (script.run services server)).count (.acquire b) := by
  suffices h : Protocol services server script
      (handlerTrail (script.run services server)) ∧
      Balanced 0 (bufferTrail (script.run services server)) from
    ⟨h.1, h.2, h.2.releases_eq⟩
  induction script with
  | nil => exact ⟨.nil, .nil⟩
  | call m sys inRequest inCall inResponse inDone rest hrequest hcall
      hresponse hdone hrest =>
      rw [DirectScript.run, handlerTrail_append, bufferTrail_append]
      exact ⟨directTransportCall_protocol hrequest.1 hcall.1 hresponse.1
          hdone.1 hrest.1,
        (directTransportCall_balanced
          ⟨hrequest.2, hcall.2, hresponse.2, hdone.2⟩).append hrest.2⟩

end Lwpb
