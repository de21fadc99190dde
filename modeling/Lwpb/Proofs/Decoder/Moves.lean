/-
What one move of the decoder can do.

Every invariant of the decoder is read off the inversion lemmas here, so
that `decodeMove`, `pass` and `dispatch` are unfolded once: `Moves` lists
the six ways a move can go on (entering a frame, popping one, and the
four ends of a pass), `pass_abort_inv` the one way it can fail an
assertion, and the reader lemmas say how far a reader moves the position.
The varint loop has its own four equations and `decodeVarintLoop_cases`.

The readers come in two strengths. Unconditionally, a reader that
succeeds has moved forward and has not left the input. Inside an ordered
buffer it also stays below the buffer's end and never faults; the one
exception is a varint read at the very end of a buffer, where the C code
has no test.
-/
import Lwpb.Core.Decoder

namespace Lwpb

open Machine

variable {sch : Schema} {root : MsgRef} {data : Bytes}

-- ============================================================= the readers

/-- A byte that was read is in the input. -/
theorem byteAt_ok {p : Nat} {b : UInt8} (h : byteAt data p = .ok b) :
    data[p]? = some b := by
  unfold byteAt at h
  cases hb : data[p]? with
  | none => rw [hb] at h; cases h
  | some c => rw [hb] at h; cases h; rfl

/-- Inside the input every byte can be read. -/
theorem byteAt_of_lt (data : Bytes) {p : Nat} (h : p < data.length) :
    ∃ b, byteAt data p = .ok b := by
  refine ⟨data[p], ?_⟩
  unfold byteAt
  rw [List.getElem?_eq_getElem h]

/-- Only there. -/
theorem byteAt_ok_lt {p : Nat} {b : UInt8} (h : byteAt data p = .ok b) :
    p < data.length :=
  (List.getElem?_eq_some_iff.mp (byteAt_ok h)).1

section

variable {stop rounds n bitpos pos : Nat} {acc : UInt64} {b : UInt8}

/-- The word behind one more byte of a varint. -/
def varintPut (acc : UInt64) (bitpos : Nat) (b : UInt8) : UInt64 :=
  acc ||| ((b &&& 0x7f).toUInt64 <<< UInt64.ofNat bitpos)

/-- The loop reads the byte at its position before it looks at the end of the
buffer: outside the input that is a fault. -/
theorem decodeVarintLoop_outside (h : data[pos]? = none) :
    decodeVarintLoop data stop rounds bitpos pos acc
      = .fault (.read pos) := by
  unfold decodeVarintLoop byteAt
  rw [h]
  rfl

/-- The byte that ends the loop: the last of a varint, or the first with
no round left. -/
theorem decodeVarintLoop_last (hb : data[pos]? = some b)
    (hend : b &&& 0x80 = 0 ∨ rounds = 0) :
    decodeVarintLoop data stop rounds bitpos pos acc
      = .ok (varintPut acc bitpos b, pos + 1) := by
  unfold decodeVarintLoop byteAt
  rw [hb]
  cases rounds with
  | zero => rfl
  | succ n => exact if_pos (hend.resolve_right (Nat.succ_ne_zero n))

/-- A continuation byte with nothing behind it. -/
theorem decodeVarintLoop_cut (hb : data[pos]? = some b)
    (hhigh : b &&& 0x80 ≠ 0) (hcut : stop < pos + 2) :
    decodeVarintLoop data stop (n + 1) bitpos pos acc = .err .endOfBuf := by
  unfold decodeVarintLoop byteAt
  rw [hb]
  dsimp only
  rw [Outcome.ok_bind, if_neg hhigh, if_pos hcut]

/-- A continuation byte with another byte behind it. -/
theorem decodeVarintLoop_next (hb : data[pos]? = some b)
    (hhigh : b &&& 0x80 ≠ 0) (hroom : pos + 2 ≤ stop) :
    decodeVarintLoop data stop (n + 1) bitpos pos acc
      = decodeVarintLoop data stop n (bitpos + 7) (pos + 1)
          (varintPut acc bitpos b) := by
  conv_lhs => unfold decodeVarintLoop byteAt
  rw [hb]
  dsimp only
  rw [Outcome.ok_bind, if_neg hhigh, if_neg (Nat.not_lt.mpr hroom)]
  rfl

/-- How the loop begins if it reads a varint. -/
theorem decodeVarintLoop_cases {r : UInt64 × Nat}
    (h : decodeVarintLoop data stop rounds bitpos pos acc = .ok r) :
    ∃ b, data[pos]? = some b ∧
      (((b &&& 0x80 = 0 ∨ rounds = 0) ∧
          r = (varintPut acc bitpos b, pos + 1)) ∨
        ∃ n, rounds = n + 1 ∧ b &&& 0x80 ≠ 0 ∧ pos + 2 ≤ stop ∧
          decodeVarintLoop data stop n (bitpos + 7) (pos + 1)
            (varintPut acc bitpos b) = .ok r) := by
  cases hb : data[pos]? with
  | none => rw [decodeVarintLoop_outside hb] at h; cases h
  | some b =>
      refine ⟨b, rfl, ?_⟩
      by_cases hend : b &&& 0x80 = 0 ∨ rounds = 0
      · rw [decodeVarintLoop_last hb hend] at h
        cases h
        exact .inl ⟨hend, rfl⟩
      obtain ⟨hhigh, hrounds⟩ := not_or.mp hend
      obtain ⟨n, rfl⟩ := Nat.exists_eq_succ_of_ne_zero hrounds
      by_cases hcut : stop < pos + 2
      · rw [decodeVarintLoop_cut hb hhigh hcut] at h
        cases h
      · have hroom := Nat.not_lt.mp hcut
        rw [decodeVarintLoop_next hb hhigh hroom] at h
        exact .inr ⟨n, rfl, hhigh, hroom, h⟩

end

/-- A varint that is read moves the position forward, inside the input,
and past `stop` only from a position at or behind it. -/
theorem decodeVarintLoop_ok {stop rounds bitpos pos : Nat}
    {acc v : UInt64} {pos' : Nat}
    (h : decodeVarintLoop data stop rounds bitpos pos acc = .ok (v, pos')) :
    pos < pos' ∧ pos' ≤ data.length ∧ (pos < stop → pos' ≤ stop) := by
  induction rounds generalizing bitpos pos acc with
  | zero =>
      obtain ⟨b, hb, ⟨-, hr⟩ | ⟨n, hn, -⟩⟩ := decodeVarintLoop_cases h
      · have hlt := (List.getElem?_eq_some_iff.mp hb).1
        cases hr
        omega
      · cases hn
  | succ n ih =>
      obtain ⟨b, hb, ⟨-, hr⟩ | ⟨n, hn, -, hroom, hrest⟩⟩ :=
        decodeVarintLoop_cases h
      · have hlt := (List.getElem?_eq_some_iff.mp hb).1
        cases hr
        omega
      · cases hn
        obtain ⟨hpos, hlen, hstop⟩ := ih hrest
        omega

/-- Inside a buffer the varint loop never reads outside the input. -/
theorem decodeVarintLoop_no_fault {stop : Nat} (hstop : stop ≤ data.length)
    {rounds bitpos pos : Nat} {acc : UInt64} {f : Fault} (hpos : pos < stop) :
    decodeVarintLoop data stop rounds bitpos pos acc ≠ .fault f := by
  have hb : ∀ p < stop, ∃ b, data[p]? = some b := fun p hp =>
    ⟨_, List.getElem?_eq_getElem (Nat.lt_of_lt_of_le hp hstop)⟩
  induction rounds generalizing bitpos pos acc with
  | zero =>
      obtain ⟨b, hb⟩ := hb pos hpos
      rw [decodeVarintLoop_last hb (.inr rfl)]
      exact fun h => by cases h
  | succ n ih =>
      obtain ⟨b, hb⟩ := hb pos hpos
      by_cases hlow : b &&& 0x80 = 0
      · rw [decodeVarintLoop_last hb (.inl hlow)]
        exact fun h => by cases h
      · by_cases hcut : stop < pos + 2
        · rw [decodeVarintLoop_cut hb hlow hcut]
          exact fun h => by cases h
        · rw [decodeVarintLoop_next hb hlow (Nat.not_lt.mp hcut)]
          exact ih (by omega)

/-- A varint that was read ends at a byte without the high bit, and moves the
position behind it. -/
theorem decodeVarint_inv {buf buf' : Buf} {v : UInt64}
    (h : decodeVarint data buf = .ok (v, buf')) :
    ∃ pos', buf' = { buf with pos := pos' } ∧
      decodeVarintLoop data buf.stop 10 0 buf.pos 0 = .ok (v, pos') := by
  unfold decodeVarint at h
  obtain ⟨⟨w, pos'⟩, hloop, h⟩ := Outcome.bind_eq_ok.mp h
  cases h
  exact ⟨pos', rfl, hloop⟩

/-- It moves the position only, by a byte at least, inside the input. -/
theorem decodeVarint_ok {buf buf' : Buf} {v : UInt64}
    (h : decodeVarint data buf = .ok (v, buf')) :
    buf' = { buf with pos := buf'.pos } ∧ buf.pos < buf'.pos ∧
      buf'.pos ≤ data.length ∧ (buf.pos < buf.stop → buf'.pos ≤ buf.stop) := by
  obtain ⟨pos', rfl, hloop⟩ := decodeVarint_inv h
  exact ⟨rfl, decodeVarintLoop_ok hloop⟩

/-- With a byte left in the buffer no fault is possible: later bytes are read
only if they are in it. -/
theorem decodeVarint_no_fault {buf : Buf} {f : Fault}
    (hpos : buf.pos < buf.stop) (hstop : buf.stop ≤ data.length) :
    decodeVarint data buf ≠ .fault f := by
  intro h
  unfold decodeVarint at h
  rcases Outcome.bind_eq_fault.mp h with hloop | ⟨⟨w, p⟩, -, h⟩
  · exact decodeVarintLoop_no_fault hstop hpos hloop
  · cases h

/-- Four bytes were read, inside the input. -/
theorem decode32bit_ok {buf buf' : Buf} {v : UInt32}
    (h : decode32bit data buf = .ok (v, buf')) :
    buf' = { buf with pos := buf.pos + 4 } ∧
      buf.pos + 4 ≤ data.length ∧ 4 ≤ bufLeft buf := by
  unfold decode32bit at h
  split at h
  · cases h
  · next hleft =>
      obtain ⟨b0, -, h⟩ := Outcome.bind_eq_ok.mp h
      obtain ⟨b1, -, h⟩ := Outcome.bind_eq_ok.mp h
      obtain ⟨b2, -, h⟩ := Outcome.bind_eq_ok.mp h
      obtain ⟨b3, hb3, h⟩ := Outcome.bind_eq_ok.mp h
      have hlt := byteAt_ok_lt hb3
      cases h
      exact ⟨rfl, by omega, by omega⟩

/-- The room is checked first, so that no byte outside is read. -/
theorem decode32bit_no_fault {buf : Buf} {f : Fault} (hord : buf.Ordered)
    (hstop : buf.stop ≤ data.length) : decode32bit data buf ≠ .fault f := by
  intro h
  unfold decode32bit at h
  split at h
  · cases h
  · next hleft =>
      rw [hord.left] at hleft
      have hpos := hord.pos_le_stop
      obtain ⟨b0, hb0⟩ := byteAt_of_lt (p := buf.pos) data (by omega)
      obtain ⟨b1, hb1⟩ := byteAt_of_lt (p := buf.pos + 1) data (by omega)
      obtain ⟨b2, hb2⟩ := byteAt_of_lt (p := buf.pos + 2) data (by omega)
      obtain ⟨b3, hb3⟩ := byteAt_of_lt (p := buf.pos + 3) data (by omega)
      rw [hb0, hb1, hb2, hb3] at h
      cases h

/-- All bytes of a word of 64 bits were in the input. -/
theorem decode64bitLoop_ok {pos : Nat} :
    ∀ {n : Nat} {acc v : UInt64},
      decode64bitLoop data pos n acc = .ok v →
        n = 0 ∨ pos + n ≤ data.length := by
  intro n
  induction n with
  | zero => intro acc v _; exact .inl rfl
  | succ n ih =>
      intro acc v h
      unfold decode64bitLoop at h
      obtain ⟨b, hb, -⟩ := Outcome.bind_eq_ok.mp h
      have hlt := byteAt_ok_lt hb
      omega

/-- If they are there is no fault. -/
theorem decode64bitLoop_no_fault {pos : Nat} :
    ∀ {n : Nat} {acc : UInt64} {f : Fault}, pos + n ≤ data.length →
      decode64bitLoop data pos n acc ≠ .fault f := by
  intro n
  induction n with
  | zero => intro acc f _ h; cases h
  | succ n ih =>
      intro acc f hle h
      obtain ⟨b, hb⟩ := byteAt_of_lt (p := pos + n) data (by omega)
      unfold decode64bitLoop at h
      rw [hb, Outcome.ok_bind] at h
      exact ih (by omega) h

/-- Eight bytes were read, inside the input. -/
theorem decode64bit_ok {buf buf' : Buf} {v : UInt64}
    (h : decode64bit data buf = .ok (v, buf')) :
    buf' = { buf with pos := buf.pos + 8 } ∧
      buf.pos + 8 ≤ data.length ∧ 8 ≤ bufLeft buf := by
  unfold decode64bit at h
  split at h
  · cases h
  · next hleft =>
      obtain ⟨w, hw, h⟩ := Outcome.bind_eq_ok.mp h
      have hle := decode64bitLoop_ok hw
      cases h
      exact ⟨rfl, by omega, by omega⟩

/-- Here too the room is checked first. -/
theorem decode64bit_no_fault {buf : Buf} {f : Fault} (hord : buf.Ordered)
    (hstop : buf.stop ≤ data.length) : decode64bit data buf ≠ .fault f := by
  intro h
  unfold decode64bit at h
  split at h
  · cases h
  · next hleft =>
      rw [hord.left] at hleft
      have hpos := hord.pos_le_stop
      rcases Outcome.bind_eq_fault.mp h with hloop | ⟨w, -, h⟩
      · exact decode64bitLoop_no_fault (by omega) hloop
      · cases h

-- ======================================================== the wire value

/-- A length-delimited value that is read: a length, and a range of the
input behind it, at the end of which the position stands. -/
theorem readWireValue_string {wv wv' : WireValue} {buf buf' : Buf}
    (h : readWireValue data .string wv buf = .ok (wv', buf')) :
    ∃ len b, decodeVarint data buf = .ok (len, b) ∧
      len.toNat ≤ bufLeft b ∧ b.pos + len.toNat ≤ data.length ∧
      wv' = ⟨len, some b.pos⟩ ∧
      buf' = { b with pos := b.pos + len.toNat } := by
  obtain ⟨⟨len, b⟩, hread, h⟩ := Outcome.bind_eq_ok.mp h
  dsimp only at h
  split at h
  · cases h
  · next hleft =>
      split at h
      · cases h
      · next hfit =>
          cases h
          exact ⟨len, b, hread, Nat.not_lt.mp hleft, Nat.not_lt.mp hfit, rfl,
            rfl⟩

/-- A wire value that is read never moves the position back or out of the
input, and moves it forward unless the wire type is undefined. -/
theorem readWireValue_ok {wt : WireType} {wv wv' : WireValue} {buf buf' : Buf}
    (hlen : buf.pos ≤ data.length)
    (h : readWireValue data wt wv buf = .ok (wv', buf')) :
    buf' = { buf with pos := buf'.pos } ∧ buf.pos ≤ buf'.pos ∧
      buf'.pos ≤ data.length ∧
      ((∀ code, wt ≠ .unknown code) → buf.pos < buf'.pos) := by
  cases wt with
  | varint =>
      obtain ⟨⟨v, b⟩, hv, h⟩ := Outcome.bind_eq_ok.mp h
      obtain ⟨hb, hpos, hle, -⟩ := decodeVarint_ok hv
      cases h
      exact ⟨hb, by omega, hle, fun _ => hpos⟩
  | bit64 =>
      obtain ⟨⟨v, b⟩, hv, h⟩ := Outcome.bind_eq_ok.mp h
      obtain ⟨hb, hle, -⟩ := decode64bit_ok hv
      cases h
      subst hb
      exact ⟨rfl, by simp, by simpa using hle, fun _ => by simp⟩
  | string =>
      obtain ⟨len, b, hread, -, hfit, rfl, rfl⟩ := readWireValue_string h
      obtain ⟨hb, hpos, -, -⟩ := decodeVarint_ok hread
      refine ⟨?_, ?_, hfit, fun _ => ?_⟩
      · rw [hb]
      · show buf.pos ≤ b.pos + len.toNat
        omega
      · show buf.pos < b.pos + len.toNat
        omega
  | bit32 =>
      obtain ⟨⟨v, b⟩, hv, h⟩ := Outcome.bind_eq_ok.mp h
      obtain ⟨hb, hle, -⟩ := decode32bit_ok hv
      cases h
      subst hb
      exact ⟨rfl, by simp, by simpa using hle, fun _ => by simp⟩
  | unknown code =>
      cases h
      exact ⟨rfl, Nat.le_refl _, hlen, fun hno => absurd rfl (hno code)⟩

-- ============================================================== the moves

/-- The first half of a pass succeeds from `s`, reading a value of wire
type `wt`, and leaves `t`. -/
inductive Reads (sch : Schema) (data : Bytes) (s : Dec) :
    WireType → Dec → Prop where
  | mk {wt : WireType} {fd : Option FieldRef} {wv : WireValue}
      {buf buf' : Buf} :
      readKey sch data s = .ok (wt, fd, buf) →
      readWireValue data wt s.wireValue buf = .ok (wv, buf') →
      Reads sch data s wt (s.read fd wv buf')

/-- What is read from a state, found by reading it. -/
theorem exists_reads_iff {s : Dec} {P : WireType → Dec → Prop} :
    (∃ wt t, Reads sch data s wt t ∧ P wt t) ↔
      ∃ key, readKey sch data s = .ok key ∧
        ∃ val, readWireValue data key.1 s.wireValue key.2.2 = .ok val ∧
          P key.1 (s.read key.2.1 val.1 val.2) := by
  constructor
  · intro h
    obtain ⟨wt, t, hreads, hP⟩ := h
    cases hreads with
    | mk hkey hval => exact ⟨_, hkey, _, hval, hP⟩
  · intro h
    obtain ⟨key, hkey, val, hval, hP⟩ := h
    exact ⟨key.1, _, .mk hkey hval, hP⟩

instance decidableReads {s : Dec} {P : WireType → Dec → Prop}
    [∀ wt t, Decidable (P wt t)] :
    Decidable (∃ wt t, Reads sch data s wt t ∧ P wt t) :=
  decidable_of_iff _ exists_reads_iff.symm

/-- Either a pass reads a field, and the rest is `dispatch`, or it halts
without a call. -/
theorem pass_cases (sch : Schema) (root : MsgRef) (data : Bytes) (s : Dec) :
    (∃ wt t, Reads sch data s wt t ∧
      pass sch root data s = dispatch sch root data wt t) ∨
    ((∀ wt t, ¬ Reads sch data s wt t) ∧
      ∃ r, pass sch root data s = .halt r []) := by
  unfold pass
  cases hkey : readKey sch data s with
  | err e =>
      refine .inr ⟨fun wt t h => ?_, _, rfl⟩
      cases h with
      | mk hkey' => rw [hkey] at hkey'; cases hkey'
  | fault f =>
      refine .inr ⟨fun wt t h => ?_, _, rfl⟩
      cases h with
      | mk hkey' => rw [hkey] at hkey'; cases hkey'
  | ok r =>
      obtain ⟨wt, fd, buf⟩ := r
      dsimp only
      cases hval : readWireValue data wt s.wireValue buf with
      | ok r =>
          obtain ⟨wv, buf'⟩ := r
          exact .inl ⟨wt, _, .mk hkey hval, rfl⟩
      | err e | fault f =>
          refine .inr ⟨fun wt' t h => ?_, _, rfl⟩
          cases h with
          | mk hkey' hval' =>
              rw [hkey] at hkey'
              cases hkey'
              rw [hval] at hval'
              cases hval'

/-- `push_stack_frame` from `t` succeeds and leaves `s'`. -/
structure Opens (data : Bytes) (t : Dec) (desc : Option MsgRef)
    (packed : Bool) (s' : Dec) : Prop where
  depth : t.depth + 1 ≤ maxDepth
  range : ∃ p, t.wireValue.data = some p ∧
    p + t.wireValue.word.toNat ≤ data.length ∧
    s' = { t with
      frame := ⟨bufInit p t.wireValue.word.toNat, desc⟩
      below := t.frame :: t.below
      packed := packed
      point := .nested }

/-- The frame that was at the top is under the new one. -/
theorem Opens.below {t s' : Dec} {desc : Option MsgRef} {packed : Bool}
    (h : Opens data t desc packed s') : s'.below = t.frame :: t.below := by
  obtain ⟨-, q, -, -, rfl⟩ := h
  rfl

/-- Opening a frame leaves `field_desc` as it is. -/
theorem Opens.fieldDesc {t s' : Dec} {desc : Option MsgRef}
    {packed : Bool} (h : Opens data t desc packed s') :
    s'.fieldDesc = t.fieldDesc := by
  obtain ⟨-, q, -, -, rfl⟩ := h
  rfl

/-- Everything a move that goes on can do. -/
inductive Moves (sch : Schema) (root : MsgRef) (data : Bytes) (s : Dec) :
    Dec → List (Event Span) → Prop where
  | enter : s.point = .nested →
      Moves sch root data s { s with point := .loop } (notifyStart s)
  | pop {frame : Frame} {below : List Frame} : s.point = .loop →
      bufLeft s.frame.buf = 0 → s.below = frame :: below →
      Moves sch root data s { s with
        frame := frame
        below := below
        packed := false
        point := .nested } (notifyEnd s)
  | skip {wt : WireType} {t : Dec} : s.point = .loop →
      0 < bufLeft s.frame.buf → Reads sch data s wt t →
      t.fieldDesc = none → Moves sch root data s t []
  | run {t s' : Dec} {f : FieldRef} : s.point = .loop →
      0 < bufLeft s.frame.buf → Reads sch data s .string t →
      t.fieldDesc = some f → (sch.field f).isPackedRepeated = true →
      Opens data t t.frame.msgDesc true s' →
      Moves sch root data s s' []
  | sub {wt : WireType} {t s' : Dec} {f : FieldRef} : s.point = .loop →
      0 < bufLeft s.frame.buf → Reads sch data s wt t →
      t.fieldDesc = some f →
      ¬ (wt = .string ∧ (sch.field f).isPackedRepeated = true) →
      (sch.field f).opts.typ.isMessage = true →
      Opens data t (sch.field f).msgDesc t.packed s' →
      Moves sch root data s s' [.field root f none t.packed]
  | value {wt : WireType} {t : Dec} {f : FieldRef} {m : MsgRef} :
      s.point = .loop → 0 < bufLeft s.frame.buf → Reads sch data s wt t →
      t.fieldDesc = some f →
      ¬ (wt = .string ∧ (sch.field f).isPackedRepeated = true) →
      (sch.field f).opts.typ.isMessage = false → t.frame.msgDesc = some m →
      Moves sch root data s t
        [.field m f (some (convert (sch.field f).opts.typ t.wireValue))
          t.packed]

/-- A push that goes on opens a frame, and reports nothing more. -/
theorem pushStackFrame_next {t s' : Dec} {desc : Option MsgRef}
    {packed : Bool} {out out' : List (Event Span)}
    (h : pushStackFrame data t desc packed out = .next s' out') :
    Opens data t desc packed s' ∧ out' = out := by
  unfold pushStackFrame at h
  split at h
  case isFalse => cases h
  case isTrue hd =>
    split at h
    case h_1 => cases h
    case h_2 p hp =>
      split at h
      case isTrue => cases h
      case isFalse hfit =>
        cases h
        exact ⟨⟨hd, p, hp, by omega, rfl⟩, rfl⟩

/-- Whatever a push comes to, it reports what was given to it. -/
theorem pushStackFrame_out (t : Dec) (desc : Option MsgRef) (packed : Bool)
    (out : List (Event Span)) :
    (pushStackFrame data t desc packed out).out = out := by
  unfold pushStackFrame
  split
  · split
    · rfl
    · split <;> rfl
  · rfl

/-- Inversion of a move that goes on. -/
theorem decodeMove_next {s s' : Dec} {out : List (Event Span)}
    (h : decodeMove sch root data s = .next s' out) :
    Moves sch root data s s' out := by
  unfold decodeMove at h
  split at h
  case h_1 hpt =>
    cases h
    exact .enter hpt
  case h_2 hpt =>
    split at h
    case isFalse hleft =>
      unfold leave at h
      split at h
      · cases h
      · next frame below hbelow =>
          cases h
          exact .pop hpt (by omega) hbelow
    case isTrue hleft =>
      rcases pass_cases sch root data s with
        ⟨wt, t, hreads, hpass⟩ | ⟨-, r, hpass⟩
      case inr =>
        rw [hpass] at h
        cases h
      rw [hpass] at h
      unfold dispatch at h
      split at h
      · next hnone =>
          cases h
          exact .skip hpt hleft hreads hnone
      · next f hf =>
          dsimp only at h
          split at h
          · next hrun =>
              simp only [Bool.and_eq_true, decide_eq_true_eq] at hrun
              obtain ⟨hopen, rfl⟩ := pushStackFrame_next h
              obtain ⟨rfl, hpacked⟩ := hrun
              exact .run hpt hleft hreads hf hpacked hopen
          · next hrun =>
              simp only [Bool.and_eq_true, decide_eq_true_eq] at hrun
              split at h
              · next hmsg =>
                  obtain ⟨hopen, rfl⟩ := pushStackFrame_next h
                  exact .sub hpt hleft hreads hf hrun hmsg hopen
              · next hmsg =>
                  split at h
                  · cases h
                  · next m hm =>
                      cases h
                      exact .value hpt hleft hreads hf hrun
                        (by simpa using hmsg) hm

/-- A pass whose first half succeeds is its second half. -/
theorem Reads.decodeMove {s t : Dec} {wt : WireType}
    (h : Reads sch data s wt t) (hpt : s.point = .loop)
    (hleft : 0 < bufLeft s.frame.buf) :
    decodeMove sch root data s = dispatch sch root data wt t := by
  cases h with
  | mk hkey hval =>
      unfold Lwpb.decodeMove
      simp only [hpt]
      rw [if_pos hleft]
      unfold pass
      simp only [hkey, hval]

-- ============================================================== the halts

/-- A field read as `wt` that makes `dispatch` push a frame. -/
def Pushes (sch : Schema) (wt : WireType) (f : FieldRef) : Prop :=
  (wt = .string ∧ (sch.field f).isPackedRepeated = true) ∨
    (sch.field f).opts.typ.isMessage = true

instance (sch : Schema) (wt : WireType) (f : FieldRef) :
    Decidable (Pushes sch wt f) :=
  inferInstanceAs (Decidable
    ((wt = .string ∧ (sch.field f).isPackedRepeated = true) ∨
      (sch.field f).opts.typ.isMessage = true))

/-- Every way a move can halt. -/
inductive Stops (sch : Schema) (data : Bytes) (s : Dec) : Result → Prop where
  | done : s.point = .loop → bufLeft s.frame.buf = 0 → s.below = [] →
      Stops sch data s (.ok (bufUsed s.frame.buf))
  | keyErr {e : Err} : s.point = .loop → 0 < bufLeft s.frame.buf →
      readKey sch data s = .err e → Stops sch data s (.err e)
  | keyFault {f : Fault} : s.point = .loop → 0 < bufLeft s.frame.buf →
      readKey sch data s = .fault f → Stops sch data s (.fault f)
  | valueErr {wt : WireType} {fd : Option FieldRef} {buf : Buf} {e : Err} :
      s.point = .loop → 0 < bufLeft s.frame.buf →
      readKey sch data s = .ok (wt, fd, buf) →
      readWireValue data wt s.wireValue buf = .err e →
      Stops sch data s (.err e)
  | valueFault {wt : WireType} {fd : Option FieldRef} {buf : Buf}
      {f : Fault} : s.point = .loop → 0 < bufLeft s.frame.buf →
      readKey sch data s = .ok (wt, fd, buf) →
      readWireValue data wt s.wireValue buf = .fault f →
      Stops sch data s (.fault f)
  | tooDeep {wt : WireType} {t : Dec} {f : FieldRef} : s.point = .loop →
      0 < bufLeft s.frame.buf → Reads sch data s wt t →
      t.fieldDesc = some f → Pushes sch wt f → maxDepth < s.depth + 1 →
      Stops sch data s .abort
  | badRange {wt : WireType} {t : Dec} {f : FieldRef} : s.point = .loop →
      0 < bufLeft s.frame.buf → Reads sch data s wt t →
      t.fieldDesc = some f → Pushes sch wt f →
      (∀ p, t.wireValue.data = some p →
        data.length < p + t.wireValue.word.toNat) →
      Stops sch data s (.fault .pointer)
  | noDesc {wt : WireType} {t : Dec} : s.point = .loop →
      0 < bufLeft s.frame.buf → Reads sch data s wt t →
      t.frame.msgDesc = none → Stops sch data s (.fault .nullDesc)

/-- Reading a field keeps the depth. -/
theorem Reads.depth {s t : Dec} {wt : WireType} (h : Reads sch data s wt t) :
    t.depth = s.depth := by
  cases h
  rfl

/-- A field that opens a frame stops the decoder if the frame cannot be
opened. -/
theorem Reads.stop {s t : Dec} {wt : WireType} {f : FieldRef} {r : Result}
    {desc : Option MsgRef} {packed : Bool} {out out' : List (Event Span)}
    (h : Reads sch data s wt t) (hpt : s.point = .loop)
    (hleft : 0 < bufLeft s.frame.buf) (hf : t.fieldDesc = some f)
    (hpush : Pushes sch wt f)
    (hstop : pushStackFrame data t desc packed out = .halt r out') :
    Stops sch data s r := by
  unfold pushStackFrame at hstop
  split at hstop
  case isFalse hd =>
    cases hstop
    rw [h.depth] at hd
    exact .tooDeep hpt hleft h hf hpush (by omega)
  case isTrue =>
    split at hstop
    case h_1 hnone =>
      cases hstop
      refine .badRange hpt hleft h hf hpush fun p hp => ?_
      rw [hnone] at hp
      cases hp
    case h_2 p hp =>
      split at hstop
      case isFalse => cases hstop
      case isTrue hfit =>
        cases hstop
        refine .badRange hpt hleft h hf hpush fun q hq => ?_
        rw [hp] at hq
        cases hq
        exact hfit

/-- Inversion of a move that halts. -/
theorem decodeMove_halt {s : Dec} {r : Result} {out : List (Event Span)}
    (h : decodeMove sch root data s = .halt r out) : Stops sch data s r := by
  unfold decodeMove at h
  split at h
  case h_1 => cases h
  case h_2 hpt =>
    split at h
    case isFalse hleft =>
      unfold leave at h
      split at h
      · next hbelow =>
          cases h
          exact .done hpt (by omega) hbelow
      · cases h
    case isTrue hleft =>
      unfold pass at h
      split at h
      · next e hkey =>
          cases h
          exact .keyErr hpt hleft hkey
      · next f hkey =>
          cases h
          exact .keyFault hpt hleft hkey
      · next wt fd buf hkey =>
          split at h
          · next e hval =>
              cases h
              exact .valueErr hpt hleft hkey hval
          · next f hval =>
              cases h
              exact .valueFault hpt hleft hkey hval
          · next wv buf' hval =>
              have hreads : Reads sch data s wt (s.read fd wv buf') :=
                .mk hkey hval
              unfold dispatch at h
              split at h
              · cases h
              · next f hf =>
                  dsimp only at h
                  split at h
                  · next hrun =>
                      simp only [Bool.and_eq_true, decide_eq_true_eq] at hrun
                      exact hreads.stop hpt hleft hf (.inl hrun) h
                  · split at h
                    · next hmsg =>
                        exact hreads.stop hpt hleft hf (.inr hmsg) h
                    · split at h
                      · next hm =>
                          cases h
                          exact .noDesc hpt hleft hreads hm
                      · cases h

-- ============================================================== the calls

/-- The first half of a pass is a function of the state. -/
theorem Reads.unique {s t t' : Dec} {wt wt' : WireType}
    (h : Reads sch data s wt t) (h' : Reads sch data s wt' t') :
    wt = wt' ∧ t = t' := by
  cases h with
  | mk hkey hval =>
      cases h' with
      | mk hkey' hval' =>
          rw [hkey] at hkey'
          cases hkey'
          rw [hval] at hval'
          cases hval'
          exact ⟨rfl, rfl⟩

/-- The next pass opens a submessage. -/
def Dec.OpensSub (sch : Schema) (data : Bytes) (s : Dec) : Prop :=
  s.point = .loop ∧ 0 < bufLeft s.frame.buf ∧
    ∃ wt t f, Reads sch data s wt t ∧ t.fieldDesc = some f ∧
      ¬ (wt = .string ∧ (sch.field f).isPackedRepeated = true) ∧
      (sch.field f).opts.typ.isMessage = true

/-- Everything a move can call the handlers with, whether it goes on or
halts. -/
inductive Calls (sch : Schema) (root : MsgRef) (data : Bytes) (s : Dec) :
    List (Event Span) → Prop where
  | enter : s.point = .nested → Calls sch root data s (notifyStart s)
  | leave : s.point = .loop → bufLeft s.frame.buf = 0 →
      Calls sch root data s (notifyEnd s)
  | quiet : ¬ s.OpensSub sch data → Calls sch root data s []
  | sub {wt : WireType} {t : Dec} {f : FieldRef} :
      Reads sch data s wt t → t.fieldDesc = some f →
      ¬ (wt = .string ∧ (sch.field f).isPackedRepeated = true) →
      (sch.field f).opts.typ.isMessage = true → s.OpensSub sch data →
      Calls sch root data s [.field root f none t.packed]
  | value {wt : WireType} {t : Dec} {f : FieldRef} {m : MsgRef} :
      s.point = .loop → ¬ s.OpensSub sch data → Reads sch data s wt t →
      t.fieldDesc = some f → t.frame.msgDesc = some m →
      Calls sch root data s
        [.field m f (some (convert (sch.field f).opts.typ t.wireValue))
          t.packed]

/-- A read of something else than a submessage opens none. -/
theorem Reads.not_opensSub {s t : Dec} {wt : WireType}
    (h : Reads sch data s wt t)
    (hno : ∀ f, t.fieldDesc = some f →
      (wt = .string ∧ (sch.field f).isPackedRepeated = true) ∨
        (sch.field f).opts.typ.isMessage = false) :
    ¬ s.OpensSub sch data := by
  intro h
  obtain ⟨-, -, wt', t', f, h', hf, hnot, hmsg⟩ := h
  obtain ⟨rfl, rfl⟩ := h.unique h'
  rcases hno f hf with hrun | hscalar
  · exact hnot hrun
  · rw [hmsg] at hscalar
    cases hscalar

/-- The calls of a pass whose first half succeeds. -/
theorem Reads.calls {s t : Dec} {wt : WireType} (h : Reads sch data s wt t)
    (hpt : s.point = .loop) (hleft : 0 < bufLeft s.frame.buf) :
    Calls sch root data s (dispatch sch root data wt t).out := by
  unfold dispatch
  split
  · next hnone =>
      refine .quiet (h.not_opensSub fun f hf => ?_)
      rw [hnone] at hf
      cases hf
  · next f hf =>
      have honly : ∀ g, t.fieldDesc = some g → g = f := by
        intro g hg
        rw [hf] at hg
        exact (Option.some.inj hg).symm
      dsimp only
      split
      · next hrun =>
          simp only [Bool.and_eq_true, decide_eq_true_eq] at hrun
          rw [pushStackFrame_out]
          refine .quiet (h.not_opensSub fun g hg => ?_)
          rw [honly g hg]
          exact .inl hrun
      · next hrun =>
          simp only [Bool.and_eq_true, decide_eq_true_eq] at hrun
          split
          · next hmsg =>
              rw [pushStackFrame_out]
              exact .sub h hf hrun hmsg
                ⟨hpt, hleft, wt, t, f, h, hf, hrun, hmsg⟩
          · next hmsg =>
              have hno : ¬ s.OpensSub sch data := by
                refine h.not_opensSub fun g hg => ?_
                rw [honly g hg]
                exact .inr (by simpa using hmsg)
              split
              · exact .quiet hno
              · next m hm => exact .value hpt hno h hf hm

/-- The calls a move makes. -/
theorem decodeMove_calls (sch : Schema) (root : MsgRef) (data : Bytes)
    (s : Dec) : Calls sch root data s (decodeMove sch root data s).out := by
  unfold decodeMove
  split
  case h_1 hpt => exact .enter hpt
  case h_2 hpt =>
    split
    case isFalse hleft =>
      unfold Lwpb.leave
      split
      · exact .leave hpt (by omega)
      · exact .leave hpt (by omega)
    case isTrue hleft =>
      rcases pass_cases sch root data s with
        ⟨wt, t, hreads, hpass⟩ | ⟨hno, r, hpass⟩
      · rw [hpass]
        exact hreads.calls hpt hleft
      · rw [hpass]
        refine .quiet fun hopens => ?_
        obtain ⟨-, -, wt, t, f, hreads, -⟩ := hopens
        exact hno wt t hreads

end Lwpb
