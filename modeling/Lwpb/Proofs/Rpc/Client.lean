/-
Which responses the client pairs with its calls.

`handle_data` calls the response handler and no other: nothing tells the
user that a call is done, except when there is no connection to begin
with. So calls and responses are paired only in runs in which no response
arrives completely (`client_pairs_iff`), and in these nothing happens at
all, as long as there is room to receive.

The receive buffer is not consumed either, and there is one slot for the
method of all calls: with the first response in the buffer, every update
that receives something hands out that response again, under the method
of the last call.
-/
import Lwpb.Rpc.Client
import Lwpb.Proofs.Rpc.Dispatch

namespace Lwpb

variable {services : List ServiceDesc} {c : SocketClient}

-- ============================================================ the property

/-- A response on the wire. -/
structure Response where
  header : Bytes
  payload : Bytes
  deriving Repr, DecidableEq

def Response.bytes (r : Response) : Bytes := frameBytes r.header r.payload

/-- How many of the responses are complete in the first `n` bytes. -/
def completed : List Response → (n : Nat) → Nat
  | [], _ => 0
  | r :: rest, n =>
      if r.bytes.length ≤ n then completed rest (n - r.bytes.length) + 1
      else 0

def ClientAction.responded : ClientAction → Option (MethodRef × Bytes)
  | .response m _ res => some (m, res)
  | _ => none

def ClientAction.finished : ClientAction → Option MethodRef
  | .done m _ => some m
  | _ => none

/-- Every response is handed out once, in order, with the method of the
call it answers, and that call is done once, behind its response. -/
structure Paired (calls : List MethodRef) (responses : List Response)
    (run : List ClientAction × Bool) : Prop where
  handed : run.1.filterMap ClientAction.responded
    = (calls.zip responses).map fun p => (p.1, p.2.payload)
  done : run.1.filterMap ClientAction.finished
    = (calls.zip responses).map Prod.fst
  afterwards : ∀ before after m res, run.1 = before ++ .done m res :: after →
    (before.filterMap ClientAction.finished).length
      < (before.filterMap ClientAction.responded).length
  returned : run.2 = true

/-- Every chunk is received into a buffer that is not full. -/
def Roomy (len : Nat) : (used : Nat) → List Bytes → Prop
  | _, [] => True
  | used, c :: cs => used < len ∧ Roomy len (used + c.length) cs

-- =================================================================== steps

/-- A call over a connection receives nothing, and no handler is told of
a response or of an end. -/
theorem transportCall_sends (hconn : c.connected = true) (l : Locals)
    (m : MethodRef) (handled : Err × Bytes) :
    ∃ last actions, transportCall services l c m handled
        = .done { c with lastMethod := last } actions ∧
      actions.filterMap ClientAction.responded = [] ∧
      actions.filterMap ClientAction.finished = [] := by
  obtain ⟨err, req⟩ := handled
  have hopen : (!c.connected) = false := by rw [hconn]; rfl
  unfold transportCall
  rw [hopen]
  by_cases herr : err = .ok
  · obtain ⟨bytes, hbytes⟩ := sendRequest_total l
      (serviceOf services m).name (methodOf services m).name req
    refine ⟨some m, [.request m (methodOf services m).reqDesc,
      .sent m bytes], ?_, rfl, rfl⟩
    simp [herr, hbytes]
  · refine ⟨c.lastMethod, [.request m (methodOf services m).reqDesc], ?_,
      rfl, rfl⟩
    simp [herr]

theorem clientUpdate_idle (hconn : c.connected = true) (l : Locals) :
    clientUpdate services l c none = .done c [] := by
  rw [clientUpdate.eq_def, hconn]
  rfl

theorem clientUpdate_data (hconn : c.connected = true) (l : Locals)
    (chunk : Bytes) :
    clientUpdate services l c (some chunk)
      = handleData services l c
        (chunk.take (c.len - c.received.length)) := by
  rw [clientUpdate.eq_def, hconn]
  rfl

/-- An update keeps the connection, adds what arrived to the buffer, and
tells nobody that a call is done. -/
theorem handleData_done {l : Locals} {chunk : Bytes} {c' : SocketClient}
    {actions : List ClientAction}
    (h : handleData services l c chunk = .done c' actions) :
    chunk ≠ [] ∧ c' = { c with received := c.received ++ chunk } ∧
      actions.filterMap ClientAction.finished = [] := by
  unfold handleData at h
  by_cases hempty : chunk.length = 0
  · rw [if_pos hempty] at h
    cases h
  · rw [if_neg hempty] at h
    refine ⟨fun hnil => hempty (by rw [hnil]; rfl), ?_⟩
    cases hparse : parseRequest [] (c.received ++ chunk) l.wireValue with
    | abort => simp [hparse] at h
    | fault f => simp [hparse] at h
    | err =>
        simp only [hparse] at h
        cases h
        exact ⟨rfl, rfl⟩
    | ok info =>
        simp only [hparse] at h
        cases hlast : c.lastMethod with
        | none => simp [hlast] at h
        | some m =>
            simp only [hlast] at h
            cases h
            exact ⟨rfl, rfl⟩

-- ==================================================================== runs

/-- No run over a connection tells that a call is done. -/
theorem runClient_finished {steps : List ClientStep}
    (hconn : c.connected = true) :
    (runClient services c steps).1.filterMap ClientAction.finished
      = [] := by
  induction steps generalizing c with
  | nil => rfl
  | cons step steps ih =>
      cases step with
      | call l m handled =>
          obtain ⟨last, actions, hret, -, hdone⟩ :=
            @transportCall_sends services c hconn l m handled
          rw [runClient, ClientStep.run, hret]
          simp only [List.filterMap_append, hdone, List.nil_append]
          exact ih hconn
      | update l arrived =>
          rw [runClient, ClientStep.run]
          cases arrived with
          | none =>
              rw [clientUpdate_idle hconn]
              exact ih hconn
          | some chunk =>
              rw [clientUpdate_data hconn]
              cases hdata : handleData services l c
                  (chunk.take (c.len - c.received.length)) with
              | abort => rfl
              | fault f => rfl
              | done c' actions =>
                  obtain ⟨-, rfl, hdone⟩ := handleData_done hdata
                  simp only [List.filterMap_append, hdone, List.nil_append]
                  exact ih hconn

/-- A run that returns had room for all that arrived. -/
theorem runClient_roomy {steps : List ClientStep}
    (hconn : c.connected = true)
    (hch : Chunked c.len c.received.length
      (steps.filterMap ClientStep.arrived))
    (hret : (runClient services c steps).2 = true) :
    Roomy c.len c.received.length
      (steps.filterMap ClientStep.arrived) := by
  induction steps generalizing c with
  | nil => trivial
  | cons step steps ih =>
      cases step with
      | call l m handled =>
          obtain ⟨last, actions, hcall, -, -⟩ :=
            @transportCall_sends services c hconn l m handled
          rw [runClient, ClientStep.run, hcall] at hret
          exact @ih { c with lastMethod := last } hconn hch hret
      | update l arrived =>
          rw [runClient, ClientStep.run] at hret
          cases arrived with
          | none =>
              rw [clientUpdate_idle hconn] at hret
              exact ih hconn hch hret
          | some chunk =>
              obtain ⟨hne, hbound, hrest⟩ := hch
              rw [clientUpdate_data hconn] at hret
              have hroom : c.received.length < c.len := by
                by_contra hfull
                rw [Nat.sub_eq_zero_of_le (Nat.not_lt.mp hfull),
                  List.take_zero] at hret
                cases hret
              have hfits := hbound.resolve_left (Nat.not_le.mpr hroom)
              rw [List.take_of_length_le (by omega)] at hret
              refine ⟨hroom, ?_⟩
              cases hdata : handleData services l c chunk with
              | abort => simp [hdata] at hret
              | fault f => simp [hdata] at hret
              | done c' actions =>
                  obtain ⟨-, rfl, -⟩ := handleData_done hdata
                  simp only [hdata] at hret
                  have hnext := @ih
                    { c with received := c.received ++ chunk } hconn
                  rw [List.length_append] at hnext
                  exact hnext hrest hret

/-- While the first response is not complete, nothing happens. -/
theorem runClient_waits {header payload tail : Bytes}
    {steps : List ClientStep} (hheader : header.length < 2 ^ 32)
    (hpayload : payload.length < 2 ^ 32) (hconn : c.connected = true)
    (hch : Chunked c.len c.received.length
      (steps.filterMap ClientStep.arrived))
    (hroom : Roomy c.len c.received.length
      (steps.filterMap ClientStep.arrived))
    (hpre : c.received ++ (steps.filterMap ClientStep.arrived).flatten
      <+: frameBytes header payload ++ tail)
    (hlt : (c.received ++ (steps.filterMap ClientStep.arrived).flatten).length
      < (frameBytes header payload).length) :
    (runClient services c steps).1.filterMap ClientAction.responded = [] ∧
      (runClient services c steps).2 = true := by
  induction steps generalizing c with
  | nil => exact ⟨rfl, rfl⟩
  | cons step steps ih =>
      cases step with
      | call l m handled =>
          obtain ⟨last, actions, hcall, hresp, -⟩ :=
            @transportCall_sends services c hconn l m handled
          obtain ⟨hnone, hret⟩ := @ih { c with lastMethod := last } hconn hch
            hroom hpre hlt
          rw [runClient, ClientStep.run, hcall]
          simp only [List.filterMap_append, hresp, List.nil_append]
          exact ⟨hnone, hret⟩
      | update l arrived =>
          rw [runClient, ClientStep.run]
          cases arrived with
          | none =>
              rw [clientUpdate_idle hconn]
              exact ih hconn hch hroom hpre hlt
          | some chunk =>
              obtain ⟨hne, hbound, hrest⟩ := hch
              obtain ⟨hfree, hroom'⟩ := hroom
              have hne : chunk ≠ [] := hne
              have hfits := hbound.resolve_left (Nat.not_le.mpr hfree)
              have hnext : (c.received ++ chunk)
                  ++ (steps.filterMap ClientStep.arrived).flatten
                    <+: frameBytes header payload ++ tail := by
                rw [List.append_assoc]
                exact hpre
              have hlt' : ((c.received ++ chunk)
                  ++ (steps.filterMap ClientStep.arrived).flatten).length
                    < (frameBytes header payload).length := by
                rw [List.append_assoc]
                exact hlt
              have hpart : handleData services l c chunk
                  = .done { c with received := c.received ++ chunk } [] := by
                have hshort := @parseRequest_short [] header payload
                  (c.received ++ chunk) tail hheader hpayload
                  ((List.prefix_append _ _).trans hnext)
                  (by rw [List.length_append] at hlt'; omega) l.wireValue
                unfold handleData
                rw [if_neg fun h => hne (List.length_eq_zero_iff.mp h)]
                simp only [hshort]
              rw [clientUpdate_data hconn,
                List.take_of_length_le (by omega), hpart]
              have hwaits := @ih { c with received := c.received ++ chunk }
                hconn
              rw [List.length_append] at hwaits
              exact hwaits hrest hroom' hnext hlt'

/-- A run in which nothing happens pairs no responses. -/
theorem paired_nil {calls : List MethodRef} {run : List ClientAction × Bool}
    (hnone : run.1.filterMap ClientAction.responded = [])
    (hdone : run.1.filterMap ClientAction.finished = [])
    (hret : run.2 = true) : Paired calls [] run := by
  refine ⟨?_, ?_, ?_, hret⟩
  · rw [hnone, List.zip_nil_right]
    rfl
  · rw [hdone, List.zip_nil_right]
    rfl
  · intro before after m res hrun
    rw [hrun, List.filterMap_append] at hdone
    cases (List.append_eq_nil_iff.mp hdone).2

/-- Calls and responses are paired if and only if no response arrives
completely, and all that arrives finds room in the buffer. -/
theorem client_pairs_iff (services : List ServiceDesc) (len : Nat)
    (steps : List ClientStep) (responses : List Response)
    (hlens : ∀ r ∈ responses,
      r.header.length < 2 ^ 32 ∧ r.payload.length < 2 ^ 32)
    (hstream : (steps.filterMap ClientStep.arrived).flatten
      <+: responses.flatMap Response.bytes)
    (hchunks : Chunked len 0 (steps.filterMap ClientStep.arrived))
    (hserver : responses.length
      ≤ (steps.filterMap ClientStep.sends).length) :
    Paired (steps.filterMap ClientStep.sends)
        (responses.take (completed responses
          (steps.filterMap ClientStep.arrived).flatten.length))
        (runClient services ⟨true, [], len, none⟩ steps) ↔
      (∀ r rest, responses = r :: rest →
        (steps.filterMap ClientStep.arrived).flatten.length
          < r.bytes.length) ∧
      Roomy len 0 (steps.filterMap ClientStep.arrived) := by
  have hdone := @runClient_finished services ⟨true, [], len, none⟩ steps rfl
  constructor
  · intro h
    refine ⟨?_, @runClient_roomy services ⟨true, [], len, none⟩ steps rfl
      hchunks h.returned⟩
    intro r rest h
    subst h
    by_contra hcomplete
    have hnone := h.done.symm.trans hdone
    have hlen := congrArg List.length hnone
    rw [completed, if_pos (Nat.not_lt.mp hcomplete)] at hlen
    simp only [List.length_map, List.length_zip, List.length_take,
      List.length_cons, List.length_nil] at hlen hserver
    omega
  · intro h
    obtain ⟨hpart, hroom⟩ := h
    cases responses with
    | nil =>
        have hempty := List.prefix_nil.mp hstream
        obtain ⟨hnone, hret⟩ := @runClient_waits services
          ⟨true, [], len, none⟩ [] [] [] steps (by decide) (by decide) rfl
          hchunks hroom (by rw [hempty]; exact List.nil_prefix)
          (by
            rw [hempty]
            show 0 < (frameBytes [] []).length
            decide)
        exact paired_nil hnone hdone hret
    | cons r rest =>
        have hlt := hpart r rest rfl
        obtain ⟨hheader, hpayload⟩ := hlens r List.mem_cons_self
        obtain ⟨hnone, hret⟩ := @runClient_waits services
          ⟨true, [], len, none⟩ r.header r.payload
          (rest.flatMap Response.bytes) steps hheader hpayload rfl hchunks
          hroom hstream hlt
        rw [completed, if_neg (Nat.not_le.mpr hlt)]
        exact paired_nil hnone hdone hret

-- ============================================================ one response

/-- A call, and its answer with the payload 1, received at once. -/
def pingRun : List ClientStep :=
  [.call freshLocals ⟨0, 0⟩ (.ok, []),
    .update freshLocals (some (Response.mk [8, 1] [1]).bytes)]

/-- A call of which the first ten bytes of the answer arrive. -/
def pingStart : List ClientStep :=
  [.call freshLocals ⟨0, 0⟩ (.ok, []),
    .update freshLocals (some ((Response.mk [8, 1] [1]).bytes.take 10))]

theorem client_pairs_iff_start :
    Paired [⟨0, 0⟩] []
        (runClient pingServer.services ⟨true, [], 1024, none⟩ pingStart) ↔
      (∀ r rest, [Response.mk [8, 1] [1]] = r :: rest →
        10 < r.bytes.length) ∧
      Roomy 1024 0 (pingStart.filterMap ClientStep.arrived) := by
  refine client_pairs_iff pingServer.services 1024 pingStart
    [⟨[8, 1], [1]⟩] ?_ ?_ ?_ ?_
  · intro r hr
    rw [List.mem_singleton.mp hr]
    exact ⟨by decide, by decide⟩
  · exact ⟨(Response.mk [8, 1] [1]).bytes.drop 10, by decide⟩
  · exact ⟨by decide, .inr (by decide), trivial⟩
  · decide

/-- The answer is handed out, and nobody is told that the call is done. -/
theorem client_never_done :
    Chunked 1024 0 (pingRun.filterMap ClientStep.arrived) ∧
      ¬ Paired [⟨0, 0⟩] [⟨[8, 1], [1]⟩]
        (runClient pingServer.services ⟨true, [], 1024, none⟩ pingRun) := by
  refine ⟨⟨by decide, .inr (by decide), trivial⟩, ?_⟩
  intro h
  have hdone := h.done
  rw [@runClient_finished pingServer.services ⟨true, [], 1024, none⟩ pingRun
    rfl] at hdone
  cases hdone

end Lwpb
