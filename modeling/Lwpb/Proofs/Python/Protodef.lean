/-
The record loop of `protodef.py` against a content that is parsed at once.

A state of the loop stands behind a number of records, with the rest of the
file in its buffer and behind it (`StandsAt`). One move reads a block, leaves
the inner loop, prints the first record of the rest, or ends the loop
(`view`). The loop prints the records of the rest, and ends as it should,
exactly if it can take every place of it (`reads_iff`, by what is left to
do): the sign of a length is the first thing that it asks, since a length
from 2^63 on is negative in it and takes `pos` back (`hostile_file_loops`).
-/
import Lwpb.Proofs.Python.Records
import Lwpb.Proofs.Python.Stream

namespace Lwpb.Python

open Machine

-- ============================================================== what is asked

section Loop

variable (new : PythonNew) (sch : Schema) (msgnum : UInt32)
  (uninit : Nat → UInt64) (blocksize : Nat) (content : Bytes)

/-- The bytes are decoded, and no exception comes of it. -/
def IsDecoded (u : UInt64) (raw : Bytes) : Prop :=
  match decoderDecode new sch u raw msgnum with
  | .dict _ none => True
  | .none => True
  | _ => False

/-- What the loop asks of a place of a file behind `k` records. -/
structure Processable (k : Nat) (rest : Bytes) : Prop where
  /-- A length, also of a record that is not all there, has no sign. -/
  signed : ∀ length more, lengthWord rest = some (length, more) →
    length.toNat < 2 ^ 63
  decodes : ∀ r more, firstRecord rest = some (r, more) →
    IsDecoded new sch msgnum (uninit k) r.payload
  /-- The blocks that are read before the record is there are not too much
  for an `int`. -/
  fits : readTo blocksize content.length
      (content.length - (behindFirst rest).length)
    - (content.length - rest.length) < 2 ^ 31

/-- A record as it is printed. -/
def FileRecord.printed (r : FileRecord) : Int × Bytes :=
  (r.length.toNat, r.payload)

/-- The end of the loop with this left behind the records. -/
def Ends (left : Bytes) : ProtodefRet → Prop
  | .stop => left = []
  | .eofError _ _ => left ≠ []
  | _ => False

/-- A round of the inner loop that does not leave it gets ahead. -/
def Advances : ProtodefState → ProtodefState → Prop
  | .inner _ pos, .inner _ pos' => pos < pos'
  | _, _ => True

/-- From here the loop prints the records of the rest, and ends as it
should. -/
def ReadsRest (rest : Bytes) (s : ProtodefState) : Prop :=
  ∃ out r, Halts (protodefStep new sch msgnum uninit blocksize) s out r ∧
    out.map (fun p => (p.recordlen, p.raw))
      = (parseRecords rest).1.map FileRecord.printed ∧
    Ends (parseRecords rest).2 r

/-- The loop reads a file as it is parsed at once, and every round of the
inner loop gets ahead. -/
structure ReadsRecords : Prop where
  reads :
    ReadsRest new sch msgnum uninit blocksize content (protodefStart content)
  advances : ∀ s s' out,
    Reach (protodefStep new sch msgnum uninit blocksize)
      (protodefStart content) s →
    protodefStep new sch msgnum uninit blocksize s = .next s' out →
    Advances s s'

-- ============================================================== the invariant

/-- The variables of the loop at a place of the buffer, with this rest of
the file from there on. -/
structure Lined (k : Nat) (rest : Bytes) (v : ProtodefVars) (p : Nat) :
    Prop where
  calls : v.calls = k
  data : v.f.data = content
  pos_le : v.f.pos ≤ content.length
  block : v.f.pos = content.length ∨ blocksize ∣ v.f.pos
  eof : v.eof = true → v.f.pos = content.length
  p_le : p ≤ v.buf.length
  buf_le : v.buf.length ≤ v.f.pos
  rest : v.buf.drop p ++ content.drop v.f.pos = rest

/-- A state of the loop behind `k` records, with this rest of the file. In
front of the outer loop the first record of the rest is not all read. -/
inductive StandsAt (k : Nat) (rest : Bytes) : ProtodefState → Prop
  | outer {v : ProtodefVars} (lined : Lined blocksize content k rest v 0)
      (short : v.f.pos < content.length - (behindFirst rest).length ∨
        content.length - (behindFirst rest).length = content.length) :
      StandsAt k rest (.outer v)
  | inner {v : ProtodefVars} {p : Nat}
      (lined : Lined blocksize content k rest v p)
      (enough : v.f.pos ≤ readTo blocksize content.length
        (content.length - (behindFirst rest).length)) :
      StandsAt k rest (.inner v p)

/-- What is left to do: first to read, then to look at. -/
def workLeft : ProtodefState → Nat × Nat
  | .outer v => (content.length - v.f.pos + (if v.eof then 0 else 1),
      if v.eof then 3 * v.buf.length + 2 * min 1 v.buf.length else 0)
  | .inner v pos => (content.length - v.f.pos + (if v.eof then 0 else 1),
      3 * v.buf.length - pos.toNat + 1)

/-- A move from a state of the loop, and what it says of the place. -/
inductive View (k : Nat) (rest : Bytes) (s : ProtodefState) : Prop
  | stops
      (move : protodefStep new sch msgnum uninit blocksize s = .halt .stop [])
      (done : rest = [])
  | torn {pos : Int} {buf : Bytes}
      (move : protodefStep new sch msgnum uninit blocksize s
        = .halt (.eofError pos buf) [])
      (left : rest ≠ []) (cut : firstRecord rest = none)
      (place : Processable new sch msgnum uninit blocksize content k rest)
  | goes {s' : ProtodefState}
      (move : protodefStep new sch msgnum uninit blocksize s = .next s' [])
      (stands : StandsAt blocksize content k rest s')
      (less : Prod.Lex (· < ·) (· < ·) (workLeft content s')
        (workLeft content s))
      (advances : Advances s s')
  | prints {s' : ProtodefState} {p : Printed} {r : FileRecord} {more : Bytes}
      (move : protodefStep new sch msgnum uninit blocksize s = .next s' [p])
      (printed : (p.recordlen, p.raw) = r.printed)
      (first : firstRecord rest = some (r, more))
      (place : Processable new sch msgnum uninit blocksize content k rest)
      (stands : StandsAt blocksize content (k + 1) more s')
      (less : Prod.Lex (· < ·) (· < ·) (workLeft content s')
        (workLeft content s))
      (advances : Advances s s')
  | fails {r : ProtodefRet}
      (move : protodefStep new sch msgnum uninit blocksize s = .halt r [])
      (bad : ∀ left, ¬ Ends left r)
      (place : ¬ Processable new sch msgnum uninit blocksize content k rest)
  | wild {s' : ProtodefState} {p : Printed}
      (move : protodefStep new sch msgnum uninit blocksize s = .next s' [p])
      (negative : p.recordlen < 0)
      (place : ¬ Processable new sch msgnum uninit blocksize content k rest)

end Loop

-- ============================================================= the outer loop

section Moves

variable {new : PythonNew} {sch : Schema} {msgnum : UInt32}
  {uninit : Nat → UInt64} {blocksize : Nat} {content : Bytes} {k : Nat}
  {rest : Bytes} {v : ProtodefVars} {p : Nat}

/-- What is read, and what is behind it. -/
theorem PyFile.read_append (f : PyFile) (n : Nat) :
    f.read n ++ f.data.drop (f.behind n).pos = f.data.drop f.pos := by
  unfold behind read
  rw [← List.drop_drop, List.length_take]
  rcases Nat.le_total n (f.data.drop f.pos).length with hle | hle
  · rw [Nat.min_eq_left hle, List.take_append_drop]
  · rw [Nat.min_eq_right hle, List.take_of_length_le hle,
      List.drop_length, List.append_nil]

/-- A state with nothing more to read has all of the rest in its buffer. -/
theorem Lined.buffered (h : Lined blocksize content k rest v p)
    (heof : v.eof = true) : v.buf.drop p = rest := by
  rw [← h.rest, h.eof heof, List.drop_length, List.append_nil]

/-- What is left of the file stands in the buffer, behind the position, and
behind the file position. -/
theorem Lined.length (h : Lined blocksize content k rest v p) :
    rest.length = v.buf.length - p + (content.length - v.f.pos) := by
  rw [← h.rest, List.length_append, List.length_drop, List.length_drop]

/-- The end of the file was seen. -/
theorem outer_view_eof (hsize : 0 < blocksize)
    (hlined : Lined blocksize content k rest v 0)
    (hshort : v.f.pos < content.length - (behindFirst rest).length ∨
      content.length - (behindFirst rest).length = content.length)
    (heof : v.eof = true) :
    View new sch msgnum uninit blocksize content k rest (.outer v) := by
  by_cases hbuf : v.buf = []
  · refine .stops (if_pos ⟨heof, hbuf⟩) ?_
    rw [← hlined.buffered heof, hbuf]
    rfl
  · have hmove : outerRound blocksize v = .next (.inner v 0) [] := by
      unfold outerRound
      rw [if_neg (fun h => hbuf h.2), if_pos heof]
    have henough := next_le_readTo hsize hlined.block hshort
    have hpos := hlined.eof heof
    have hlen := List.length_pos_iff.mpr hbuf
    refine .goes hmove (.inner (p := 0) hlined (by omega)) (.right _ ?_)
      trivial
    simp only [heof, if_true]
    omega

/-- The variables when a block has been read. -/
def ProtodefVars.behindBlock (v : ProtodefVars) (blocksize : Nat) :
    ProtodefVars :=
  { v with
    f := v.f.behind blocksize
    buf := v.buf ++ v.f.read blocksize
    eof := (v.f.read blocksize).length < blocksize }

/-- A block is read in full, unless the file ends before. -/
theorem Lined.read_length (h : Lined blocksize content k rest v p) :
    (v.f.read blocksize).length
      = min blocksize (content.length - v.f.pos) := by
  unfold PyFile.read
  rw [List.length_take, List.length_drop, h.data]

/-- The file position moves by what was read. -/
theorem Lined.behind_pos (h : Lined blocksize content k rest v p) :
    (v.f.behind blocksize).pos
      = v.f.pos + min blocksize (content.length - v.f.pos) :=
  congrArg (v.f.pos + ·) h.read_length

/-- A file is read in whole blocks, up to its end. -/
theorem Lined.behind_block (h : Lined blocksize content k rest v p) :
    (v.f.behind blocksize).pos = content.length ∨
      blocksize ∣ (v.f.behind blocksize).pos := by
  rw [h.behind_pos]
  have hpos := h.pos_le
  rcases Nat.le_total blocksize (content.length - v.f.pos) with hle | hle
  · rcases h.block with hall | hdvd
    · left
      omega
    · right
      rw [Nat.min_eq_left hle]
      exact Nat.dvd_add hdvd (Nat.dvd_refl blocksize)
  · left
    omega

/-- A block that is read is in the buffer, and no longer behind it. -/
theorem Lined.read (h : Lined blocksize content k rest v 0) :
    Lined blocksize content k rest (v.behindBlock blocksize) 0 := by
  have hread := h.read_length
  have hbehind := h.behind_pos
  have hpos := h.pos_le
  have hbuf := h.buf_le
  constructor
  · exact h.calls
  · exact h.data
  · show (v.f.behind blocksize).pos ≤ content.length
    omega
  · exact h.behind_block
  · intro hlast
    have hlast := of_decide_eq_true hlast
    show (v.f.behind blocksize).pos = content.length
    omega
  · exact Nat.zero_le _
  · show (v.buf ++ v.f.read blocksize).length ≤ (v.f.behind blocksize).pos
    rw [List.length_append]
    omega
  · have happend := v.f.read_append blocksize
    rw [h.data] at happend
    show (v.buf ++ v.f.read blocksize)
      ++ content.drop (v.f.behind blocksize).pos = rest
    rw [List.append_assoc, happend]
    exact h.rest

/-- A block is read. -/
theorem outer_view_read (hsize : 0 < blocksize)
    (hlined : Lined blocksize content k rest v 0)
    (hshort : v.f.pos < content.length - (behindFirst rest).length ∨
      content.length - (behindFirst rest).length = content.length)
    (heof : v.eof = false) :
    View new sch msgnum uninit blocksize content k rest (.outer v) := by
  have hmove : outerRound blocksize v
      = .next (.inner (v.behindBlock blocksize) 0) [] := by
    unfold outerRound
    rw [heof]
    rfl
  have hread := hlined.read_length
  have hbehind := hlined.behind_pos
  have hpos := hlined.pos_le
  have henough := next_le_readTo hsize hlined.block hshort
  refine .goes hmove (.inner (p := 0) hlined.read ?_) (.left _ _ ?_) trivial
  · show (v.f.behind blocksize).pos ≤ _
    omega
  · unfold ProtodefVars.behindBlock
    simp only [heof, decide_eq_true_eq, Bool.false_eq_true, if_false]
    split
    · omega
    · omega

/-- The outer loop: a block is read and appended to what is left of the
buffer. At the end of the file it stops. -/
theorem outer_view (hsize : 0 < blocksize)
    (h : StandsAt blocksize content k rest (.outer v)) :
    View new sch msgnum uninit blocksize content k rest (.outer v) := by
  cases h with
  | outer hlined hshort =>
      cases heof : v.eof with
      | true => exact outer_view_eof hsize hlined hshort heof
      | false => exact outer_view_read hsize hlined hshort heof

-- ============================================================= the inner loop

/-- There is no whole record in the buffer, and no length with a sign. -/
structure Lacks (buf : Bytes) : Prop where
  none : firstRecord buf = none
  signed : ∀ length more, lengthWord buf = some (length, more) →
    length.toNat < 2 ^ 63
  fits : buf.length < 2 ^ 31

/-- An empty buffer has no record. -/
theorem lacks_nil : Lacks [] :=
  ⟨rfl, nofun, by decide⟩

/-- What is behind the first record is at the end of the rest. -/
theorem behindFirst_le (rest : Bytes) :
    (behindFirst rest).length ≤ rest.length := by
  unfold behindFirst
  cases hfirst : firstRecord rest with
  | none => exact Nat.zero_le _
  | some first => exact Nat.le_of_lt (firstRecord_shorter hfirst)

/-- Behind a record that is missing there is nothing. -/
theorem behindFirst_none (h : firstRecord rest = none) :
    behindFirst rest = [] := by
  unfold behindFirst
  rw [h]

/-- Behind the first record stands the rest. -/
theorem behindFirst_some {r : FileRecord} {more : Bytes}
    (h : firstRecord rest = some (r, more)) : behindFirst rest = more := by
  unfold behindFirst
  rw [h]

/-- A record that is not in the buffer does not end there. -/
theorem Lined.short (hlined : Lined blocksize content k rest v p)
    (h : firstRecord (v.buf.drop p) = none) :
    v.f.pos < content.length - (behindFirst rest).length ∨
      content.length - (behindFirst rest).length = content.length := by
  cases hfirst : firstRecord rest with
  | none =>
      rw [behindFirst_none hfirst]
      exact .inr rfl
  | some first =>
      obtain ⟨r, more⟩ := first
      rw [behindFirst_some hfirst]
      have hpos := hlined.pos_le
      by_cases hle : (content.drop v.f.pos).length ≤ more.length
      · rw [← hlined.rest] at hfirst
        obtain ⟨front, hfront, hlen⟩ := firstRecord_front hfirst hle
        have := @firstRecord_append _ [] _ _ hfront hlen
        rw [List.append_nil, h] at this
        cases this
      · rw [List.length_drop] at hle
        exact .inl (by omega)

/-- An index inside a list is taken as it is. -/
theorem sliceIndex_nat {len p : Nat} (h : p ≤ len) :
    sliceIndex len p = p := by
  unfold sliceIndex
  rw [if_neg (by omega), Int.toNat_natCast, Nat.min_eq_left h]

/-- A slice from there is what stands behind it. -/
theorem sliceFrom_nat {buf : Bytes} (h : p ≤ buf.length) :
    sliceFrom buf p = buf.drop p := by
  unfold sliceFrom
  rw [sliceIndex_nat h]

/-- Behind the inner loop. -/
theorem left_view (hlined : Lined blocksize content k rest v p)
    (hlacks : Lacks (v.buf.drop p))
    (hmove : protodefStep new sch msgnum uninit blocksize (.inner v p)
      = innerLeft v p) :
    View new sch msgnum uninit blocksize content k rest (.inner v p) := by
  have hshort := hlined.short hlacks.none
  unfold innerLeft at hmove
  by_cases hp : 0 < p
  · have hple := hlined.p_le
    have hbuf := hlined.buf_le
    rw [if_pos (by omega), sliceFrom_nat hple] at hmove
    refine .goes hmove (.outer ⟨hlined.calls, hlined.data, hlined.pos_le,
      hlined.block, hlined.eof, Nat.zero_le _, ?_, ?_⟩ hshort)
      (.right _ ?_) trivial
    · show (v.buf.drop p).length ≤ v.f.pos
      rw [List.length_drop]
      omega
    · show (v.buf.drop p).drop 0 ++ content.drop v.f.pos = rest
      rw [List.drop_zero]
      exact hlined.rest
    · simp only [List.length_drop, Int.toNat_natCast]
      split
      · omega
      · omega
  · obtain rfl : p = 0 := by omega
    rw [if_neg (by omega)] at hmove
    by_cases hend : v.eof = true ∧ v.buf ≠ []
    · obtain ⟨heof, hne⟩ := hend
      rw [if_pos ⟨heof, hne⟩] at hmove
      have hrest : v.buf = rest := hlined.buffered heof
      rw [List.drop_zero, hrest] at hlacks
      refine .torn hmove (hrest ▸ hne) hlacks.none
        ⟨hlacks.signed, ?_, ?_⟩
      · intro r more hfirst
        rw [hlacks.none] at hfirst
        cases hfirst
      · rw [behindFirst_none hlacks.none]
        have := hlacks.fits
        have hle : readTo blocksize content.length (content.length - 0)
            ≤ content.length := Nat.min_le_left ..
        show readTo blocksize content.length (content.length - 0) - _ < 2 ^ 31
        omega
    · rw [if_neg hend] at hmove
      refine .goes hmove (.outer hlined hshort) (.right _ ?_) trivial
      cases heof : v.eof with
      | true =>
          have hnil : v.buf = [] := by
            by_contra hne
            exact hend ⟨heof, hne⟩
          simp [hnil]
      | false => simp

/-- A signed number of 64 bits is negative from the sign bit on. -/
theorem toInt64_toInt (n : UInt64) : n.toInt64.toInt =
    if n.toNat < 2 ^ 63 then (n.toNat : Int) else n.toNat - 2 ^ 64 := by
  have hint : n.toInt64.toInt = n.toBitVec.toInt := rfl
  have hnat : n.toBitVec.toNat = n.toNat := rfl
  rw [hint, BitVec.toInt_eq_toNat_cond, hnat]
  split
  · rw [if_pos (by omega)]
  · rw [if_neg (by omega)]
    rfl

/-- A slice inside a list has the length that was asked for. -/
theorem slice_nat {buf : Bytes} {n : Nat} (h : p + n ≤ buf.length) :
    slice buf p (p + n) = (buf.drop p).take n := by
  have hsum : ((p : Int) + n) = ((p + n : Nat) : Int) := by omega
  unfold slice
  rw [hsum, sliceIndex_nat h, sliceIndex_nat (by omega), List.drop_take,
    Nat.add_sub_cancel_left]

/-- A record in the buffer, with these bytes behind its length. -/
structure HasRecord (buf : Bytes) (r : FileRecord) (front : Bytes) : Prop where
  word : lengthWord buf = some (r.length, front)
  signed : r.length.toNat < 2 ^ 63
  le : r.length.toNat ≤ front.length
  payload : r.payload = front.take r.length.toNat
  fits : buf.length < 2 ^ 31

variable {front : Bytes} {r : FileRecord}

/-- A record that the buffer has in full is the first record of what is left
of the file. -/
theorem HasRecord.first {buf : Bytes} (h : HasRecord buf r front)
    (more : Bytes) :
    firstRecord (buf ++ more)
      = some (r, front.drop r.length.toNat ++ more) := by
  rw [firstRecord_append h.word h.le, ← h.payload]

/-- Where the bytes of a record stand. -/
theorem HasRecord.place {buf : Bytes} (h : HasRecord (buf.drop p) r front) :
    front = buf.drop (p + ((buf.drop p).length - front.length)) ∧
      p + ((buf.drop p).length - front.length) + front.length = buf.length ∧
      0 < (buf.drop p).length - front.length := by
  have hlt := lengthWord_shorter h.word
  obtain ⟨pos, hloop, hfront⟩ := lengthWord_eq_some.mp h.word
  obtain ⟨-, hle, -⟩ := decodeVarintLoop_ok hloop
  have hpos : (buf.drop p).length - front.length = pos := by
    rw [hfront, @List.length_drop _ pos]
    exact Nat.sub_sub_self hle
  rw [List.length_drop] at hle
  refine ⟨?_, ?_, by omega⟩
  · rw [hpos, hfront, List.drop_drop]
  · rw [hpos, hfront, List.length_drop, List.length_drop]
    omega

/-- A record in the buffer is the first of the rest. -/
theorem Lined.first (hlined : Lined blocksize content k rest v p)
    (h : HasRecord (v.buf.drop p) r front) :
    firstRecord rest
      = some (r, front.drop r.length.toNat ++ content.drop v.f.pos) := by
  rw [← hlined.rest]
  exact h.first _

/-- What is asked of it. -/
theorem Lined.processable_iff (hlined : Lined blocksize content k rest v p)
    (hsize : 0 < blocksize)
    (henough : v.f.pos ≤ readTo blocksize content.length
      (content.length - (behindFirst rest).length))
    (h : HasRecord (v.buf.drop p) r front) :
    Processable new sch msgnum uninit blocksize content k rest ↔
      IsDecoded new sch msgnum (uninit k) r.payload := by
  have hfirst := hlined.first h
  constructor
  · intro hplace
    exact hplace.decodes r _ hfirst
  · intro hdec
    refine ⟨?_, ?_, ?_⟩
    · intro length' more hlength
      rw [← hlined.rest, lengthWord_append h.word] at hlength
      cases hlength
      exact h.signed
    · intro r' more hr
      rw [hfirst] at hr
      cases hr
      exact hdec
    · have hpos := hlined.pos_le
      have hbuf := hlined.buf_le
      have hfits := h.fits
      have hread := readTo_eq (e := content.length
        - (behindFirst rest).length) hsize henough hlined.block (by
          rw [behindFirst_some hfirst, List.length_append, List.length_drop,
            List.length_drop]
          omega)
      rw [hread, hlined.length]
      rw [List.length_drop] at hfits
      omega

/-- The state behind a record that was printed. -/
theorem Lined.printed (hlined : Lined blocksize content k rest v p)
    (henough : v.f.pos ≤ readTo blocksize content.length
      (content.length - (behindFirst rest).length))
    (h : HasRecord (v.buf.drop p) r front) {q : Nat}
    (hq : q = p + ((v.buf.drop p).length - front.length) + r.length.toNat) :
    StandsAt blocksize content (k + 1)
      (front.drop r.length.toNat ++ content.drop v.f.pos)
      (.inner { v with calls := v.calls + 1 } q) := by
  obtain ⟨hfront, hsum, -⟩ := h.place
  have hle := h.le
  refine .inner ⟨congrArg (· + 1) hlined.calls, hlined.data, hlined.pos_le,
    hlined.block, hlined.eof, ?_, hlined.buf_le, ?_⟩ ?_
  · show q ≤ v.buf.length
    omega
  · show v.buf.drop q ++ content.drop v.f.pos = _
    rw [hq, ← List.drop_drop, ← hfront]
  · refine Nat.le_trans henough (readTo_mono ?_)
    rw [behindFirst_some (hlined.first h)]
    have := behindFirst_le
      (front.drop r.length.toNat ++ content.drop v.f.pos)
    omega

/-- What is printed, or raised, for a slice of the buffer: it depends on
whether the slice is decoded. -/
theorem printRecord_cases (new : PythonNew) (sch : Schema) (msgnum : UInt32)
    (uninit : Nat → UInt64) (v : ProtodefVars) (pos recordlen : Int) :
    (IsDecoded new sch msgnum (uninit v.calls)
        (slice v.buf pos (pos + recordlen)) ∧
      ∃ record, printRecord new sch msgnum uninit v pos recordlen
        = .next (.inner { v with calls := v.calls + 1 } (pos + recordlen))
          [⟨recordlen, slice v.buf pos (pos + recordlen), record⟩]) ∨
    (¬ IsDecoded new sch msgnum (uninit v.calls)
        (slice v.buf pos (pos + recordlen)) ∧
      ∃ r, printRecord new sch msgnum uninit v pos recordlen = .halt r [] ∧
        ∀ left, ¬ Ends left r) := by
  unfold printRecord IsDecoded
  dsimp only
  cases decoderDecode new sch (uninit v.calls)
      (slice v.buf pos (pos + recordlen)) msgnum with
  | dict items pending =>
      cases pending with
      | none => exact .inl ⟨trivial, _, rfl⟩
      | some error => exact .inr ⟨id, _, rfl, fun _ => id⟩
  | none => exact .inl ⟨trivial, _, rfl⟩
  | null error => exact .inr ⟨id, _, rfl, fun _ => id⟩
  | abort => exact .inr ⟨id, _, rfl, fun _ => id⟩
  | fault => exact .inr ⟨id, _, rfl, fun _ => id⟩

/-- A record that is in the buffer. -/
theorem print_view (hsize : 0 < blocksize)
    (hlined : Lined blocksize content k rest v p)
    (henough : v.f.pos ≤ readTo blocksize content.length
      (content.length - (behindFirst rest).length))
    (h : HasRecord (v.buf.drop p) r front)
    (hmove : protodefStep new sch msgnum uninit blocksize (.inner v p)
      = printRecord new sch msgnum uninit v
          (p + ((v.buf.drop p).length - front.length : Nat))
          r.length.toNat) :
    View new sch msgnum uninit blocksize content k rest (.inner v p) := by
  obtain ⟨hfront, hsum, hpos⟩ := h.place
  have hle := h.le
  have hnext := hlined.printed henough h rfl
  have hplace : Processable new sch msgnum uninit blocksize content k rest ↔
      IsDecoded new sch msgnum (uninit k) r.payload :=
    hlined.processable_iff hsize henough h
  generalize (v.buf.drop p).length - front.length = bytes at *
  have hraw :
      slice v.buf (p + bytes : Nat) ((p + bytes : Nat) + r.length.toNat)
        = r.payload := by
    rw [slice_nat (by omega), ← hfront, h.payload]
  rw [show ((p : Int) + (bytes : Int)) = ((p + bytes : Nat) : Int) from rfl]
    at hmove
  have hcases := printRecord_cases new sch msgnum uninit v (p + bytes : Nat)
    r.length.toNat
  rw [hraw, hlined.calls, ← hmove] at hcases
  rw [hlined.calls] at hnext
  rcases hcases with ⟨hdec, record, hprint⟩ | ⟨hno, error, hraise, hbad⟩
  · refine .prints hprint rfl (hlined.first h) (hplace.mpr hdec) hnext ?_ ?_
    · apply Prod.Lex.right
      simp only [Int.toNat_natCast]
      omega
    · show (p : Int) < (p + bytes + r.length.toNat : Nat)
      omega
  · exact .fails hraise hbad (mt hplace.mp hno)

/-- A length with a sign: the loop prints something for it, or raises. -/
theorem wild_view {pos recordlen : Int} (hneg : recordlen < 0)
    (hplace : ¬ Processable new sch msgnum uninit blocksize content k rest)
    (hmove : protodefStep new sch msgnum uninit blocksize (.inner v p)
      = printRecord new sch msgnum uninit v pos recordlen) :
    View new sch msgnum uninit blocksize content k rest (.inner v p) := by
  rcases printRecord_cases new sch msgnum uninit v pos recordlen with
    ⟨-, record, hprint⟩ | ⟨-, error, hraise, hbad⟩
  · exact .wild (hmove.trans hprint) hneg hplace
  · exact .fails (hmove.trans hraise) hbad hplace

/-- A buffer that is too long. -/
theorem Lined.too_long (hlined : Lined blocksize content k rest v p)
    (henough : v.f.pos ≤ readTo blocksize content.length
      (content.length - (behindFirst rest).length))
    (hlong : 2 ^ 31 ≤ (v.buf.drop p).length) :
    ¬ Processable new sch msgnum uninit blocksize content k rest := by
  intro hplace
  have hfits := hplace.fits
  rw [hlined.length] at hfits
  have hpos := hlined.pos_le
  have hbuf := hlined.buf_le
  rw [List.length_drop] at hlong
  omega

/-- The first record of a buffer, if its length says that it is there. -/
theorem firstRecord_of_word {buf : Bytes} {length : UInt64}
    (h : lengthWord buf = some (length, front))
    (hlt : front.length < length.toNat) :
    firstRecord buf = none := by
  unfold firstRecord
  rw [h]
  exact if_neg (Nat.not_le.mpr hlt)

/-- The inner loop: a record that the buffer has in full is processed, and the
position moves behind it. One that it does not have ends the loop; one of a
negative length moves the position back. -/
theorem inner_view {pos : Int} (hsize : 0 < blocksize)
    (h : StandsAt blocksize content k rest (.inner v pos)) :
    View new sch msgnum uninit blocksize content k rest (.inner v pos) := by
  cases h with
  | @inner _ p hlined henough =>
  have hple := hlined.p_le
  have hmove : protodefStep new sch msgnum uninit blocksize (.inner v p)
      = innerRound new sch msgnum uninit v p := rfl
  unfold innerRound at hmove
  by_cases hend : v.buf.length ≤ p
  · -- the buffer is used up
    rw [if_pos (by omega)] at hmove
    refine left_view hlined ?_ hmove
    rw [List.drop_eq_nil_of_le hend]
    exact lacks_nil
  rw [if_neg (by omega), sliceFrom_nat hple] at hmove
  have hlen : (v.buf.drop p).length = v.buf.length - p := List.length_drop
  have hne : v.buf.drop p ≠ [] := List.ne_nil_of_length_pos (by omega)
  by_cases hlong : 2 ^ 31 ≤ (v.buf.drop p).length
  · rw [decoderDecodeVarint_long hlong] at hmove
    exact .fails hmove (fun _ => id) (hlined.too_long henough hlong)
  rw [decoderDecodeVarint_eq hne (by omega)] at hmove
  cases hword : lengthWord (v.buf.drop p) with
  | none =>
      -- the length is cut off
      rw [hword] at hmove
      refine left_view hlined ⟨?_, ?_, by omega⟩ hmove
      · unfold firstRecord
        rw [hword]
        rfl
      · intro length more hsome
        rw [hword] at hsome
        cases hsome
  | some word =>
      obtain ⟨length, front⟩ := word
      have hshorter := lengthWord_shorter hword
      rw [hword] at hmove
      dsimp only at hmove
      rw [if_neg (by omega)] at hmove
      by_cases hsigned : length.toNat < 2 ^ 63
      · rw [toInt64_toInt, if_pos hsigned] at hmove
        by_cases hle : length.toNat ≤ front.length
        · have hholds : HasRecord (v.buf.drop p)
              ⟨length, front.take length.toNat⟩ front :=
            ⟨hword, hsigned, hle, rfl, by omega⟩
          rw [if_neg (by omega)] at hmove
          exact print_view hsize hlined henough hholds hmove
        · -- the payload is cut off
          rw [if_pos (by omega)] at hmove
          refine left_view hlined ⟨firstRecord_of_word hword (by omega), ?_,
            by omega⟩ hmove
          intro length' more hsome
          rw [hword] at hsome
          cases hsome
          exact hsigned
      · have hlt := length.toNat_lt
        rw [toInt64_toInt, if_neg hsigned, if_neg (by omega)] at hmove
        refine wild_view (by omega) ?_ hmove
        intro hplace
        refine hsigned
          (hplace.signed length (front ++ content.drop v.f.pos) ?_)
        rw [← hlined.rest]
        exact lengthWord_append hword

/-- What a state stands for, in both loops. -/
theorem view (hsize : 0 < blocksize) {s : ProtodefState}
    (h : StandsAt blocksize content k rest s) :
    View new sch msgnum uninit blocksize content k rest s := by
  cases s with
  | outer v => exact outer_view hsize h
  | inner v pos => exact inner_view hsize h

-- ================================================================= whole runs

/-- Nothing is asked at the end of a file. -/
theorem processable_nil :
    Processable new sch msgnum uninit blocksize content k [] := by
  refine ⟨nofun, nofun, ?_⟩
  have hle : readTo blocksize content.length (content.length - 0)
      ≤ content.length := Nat.min_le_left ..
  show readTo blocksize content.length (content.length - 0)
    - (content.length - 0) < 2 ^ 31
  omega

variable {P : Nat → Bytes → Prop}

/-- Every place behind some records, if there is no whole one. -/
theorem behindRecords_none (h : firstRecord rest = none) :
    (∀ j more, behindRecords j rest = some more → P (k + j) more) ↔
      P k rest := by
  constructor
  · intro hall
    exact hall 0 rest rfl
  · intro hrest j more hj
    cases j with
    | zero => cases hj; exact hrest
    | succ j =>
        unfold behindRecords at hj
        rw [h] at hj
        cases hj

/-- And if there is one. -/
theorem behindRecords_some {more : Bytes}
    (h : firstRecord rest = some (r, more)) :
    (∀ j more, behindRecords j rest = some more → P (k + j) more) ↔
      P k rest ∧
        ∀ j left, behindRecords j more = some left → P (k + 1 + j) left := by
  constructor
  · intro hall
    refine ⟨hall 0 rest rfl, ?_⟩
    intro j left hj
    rw [Nat.add_assoc, Nat.add_comm 1 j]
    refine hall (j + 1) left ?_
    unfold behindRecords
    rw [h]
    exact hj
  · intro hall j left hj
    obtain ⟨hrest, hmore⟩ := hall
    cases j with
    | zero => cases hj; exact hrest
    | succ j =>
        unfold behindRecords at hj
        rw [h] at hj
        rw [Nat.add_comm j 1, ← Nat.add_assoc]
        exact hmore j left hj

/-- From a move that prints nothing the loop reads what it reads. -/
theorem reads_goes {s s' : ProtodefState}
    (h : protodefStep new sch msgnum uninit blocksize s = .next s' []) :
    ReadsRest new sch msgnum uninit blocksize rest s ↔
      ReadsRest new sch msgnum uninit blocksize rest s' := by
  have hexec := Exec.single h
  constructor
  · intro hreads
    obtain ⟨out, ret, hhalts, hout, hend⟩ := hreads
    obtain ⟨_, rfl, hhalts'⟩ := hexec.halts_iff.mp hhalts
    exact ⟨_, ret, hhalts', hout, hend⟩
  · intro hreads
    obtain ⟨out, ret, hhalts, hout, hend⟩ := hreads
    exact ⟨out, ret, hexec.halts hhalts, hout, hend⟩

/-- And from one that prints the first record, it reads what is behind the
record. -/
theorem reads_prints {s s' : ProtodefState} {q : Printed} {more : Bytes}
    (h : protodefStep new sch msgnum uninit blocksize s = .next s' [q])
    (hq : (q.recordlen, q.raw) = r.printed)
    (hfirst : firstRecord rest = some (r, more)) :
    ReadsRest new sch msgnum uninit blocksize rest s ↔
      ReadsRest new sch msgnum uninit blocksize more s' := by
  have hexec := Exec.single h
  unfold ReadsRest
  rw [parseRecords_some hfirst]
  constructor
  · intro hreads
    obtain ⟨out, ret, hhalts, hout, hend⟩ := hreads
    obtain ⟨out', rfl, hhalts'⟩ := hexec.halts_iff.mp hhalts
    exact ⟨out', ret, hhalts', (List.cons.inj hout).2, hend⟩
  · intro hreads
    obtain ⟨out, ret, hhalts, hout, hend⟩ := hreads
    exact ⟨[q] ++ out, ret, hexec.halts hhalts,
      congrArg₂ List.cons hq hout, hend⟩

/-- From a place in a file the loop reads the rest of it exactly if it can
take every place behind. -/
theorem reads_iff {k : Nat} {rest : Bytes} (hsize : 0 < blocksize)
    {s : ProtodefState} (h : StandsAt blocksize content k rest s) :
    ReadsRest new sch msgnum uninit blocksize rest s ↔
      ∀ j more, behindRecords j rest = some more →
        Processable new sch msgnum uninit blocksize content (k + j) more := by
  have hview : View new sch msgnum uninit blocksize content k rest s :=
    view hsize h
  cases hview with
  | stops hmove hdone =>
      subst hdone
      have hparse : parseRecords [] = ([], []) := parseRecords_none rfl
      refine iff_of_true ⟨[], .stop, .stop hmove, ?_, ?_⟩ ?_
      · rw [hparse]
        rfl
      · rw [hparse]
        rfl
      · rw [behindRecords_none rfl]
        exact processable_nil
  | torn hmove hleft hcut hplace =>
      have hparse := parseRecords_none hcut
      refine iff_of_true ⟨[], _, .stop hmove, ?_, ?_⟩ ?_
      · rw [hparse]
        rfl
      · rw [hparse]
        exact hleft
      · rw [behindRecords_none hcut]
        exact hplace
  | goes hmove hstands hless _ =>
      rw [reads_goes hmove]
      exact reads_iff hsize hstands
  | prints hmove hprinted hfirst hplace hstands hless _ =>
      rw [reads_prints hmove hprinted hfirst, behindRecords_some hfirst,
        and_iff_right hplace]
      exact reads_iff hsize hstands
  | fails hmove hbad hplace =>
      refine iff_of_false ?_ (fun hall => hplace (hall 0 rest rfl))
      intro hreads
      obtain ⟨out, ret, hhalts, -, hend⟩ := hreads
      obtain ⟨-, rfl⟩ := hhalts.unique (.stop hmove)
      exact hbad _ hend
  | @wild s' q hmove hnegative hplace =>
      refine iff_of_false ?_ (fun hall => hplace (hall 0 rest rfl))
      intro hreads
      obtain ⟨out, ret, hhalts, hout, -⟩ := hreads
      obtain ⟨out', rfl, -⟩ := (Exec.single hmove).halts_iff.mp hhalts
      cases hrecords : (parseRecords rest).1 with
      | nil => rw [hrecords] at hout; cases hout
      | cons r records =>
          rw [hrecords] at hout
          have hlength : q.recordlen = r.printed.1 :=
            congrArg Prod.fst (List.cons.inj hout).1
          have : (0 : Int) ≤ r.printed.1 := Int.natCast_nonneg _
          omega
termination_by workLeft content s
decreasing_by
  · exact hless
  · exact hless

/-- At the start all of the file is left, and no record is counted. -/
theorem stands_start (content : Bytes) :
    StandsAt blocksize content 0 content (protodefStart content) := by
  refine .outer ⟨rfl, rfl, Nat.zero_le _, .inr (Nat.dvd_zero _), nofun,
    Nat.le_refl _, Nat.le_refl _, rfl⟩ ?_
  show 0 < content.length - (behindFirst content).length ∨ _
  cases hfirst : firstRecord content with
  | none =>
      rw [behindFirst_none hfirst]
      exact .inr rfl
  | some first =>
      have hshorter := firstRecord_shorter hfirst
      rw [behindFirst_some hfirst]
      exact .inl (by omega)

/-- As long as the loop can take every place, its rounds get ahead. -/
theorem advances_of_stands (hsize : 0 < blocksize) {s s' : ProtodefState}
    {out : List Printed} (h : StandsAt blocksize content k rest s)
    (hplaces : ∀ j more, behindRecords j rest = some more →
      Processable new sch msgnum uninit blocksize content (k + j) more)
    (hmove : protodefStep new sch msgnum uninit blocksize s = .next s' out) :
    Advances s s' ∧ ∃ k' rest', StandsAt blocksize content k' rest' s' ∧
      ∀ j more, behindRecords j rest' = some more →
        Processable new sch msgnum uninit blocksize content (k' + j) more := by
  have hview : View new sch msgnum uninit blocksize content k rest s :=
    view hsize h
  cases hview with
  | stops hmove' => rw [hmove'] at hmove; cases hmove
  | torn hmove' => rw [hmove'] at hmove; cases hmove
  | goes hmove' hstands _ hadvances =>
      rw [hmove'] at hmove
      cases hmove
      exact ⟨hadvances, k, rest, hstands, hplaces⟩
  | prints hmove' _ hfirst _ hstands _ hadvances =>
      rw [hmove'] at hmove
      cases hmove
      rw [behindRecords_some hfirst] at hplaces
      exact ⟨hadvances, k + 1, _, hstands, hplaces.2⟩
  | fails hmove' => rw [hmove'] at hmove; cases hmove
  | wild _ _ hplace => exact absurd (hplaces 0 rest rfl) hplace

end Moves

/-- The loop reads a file, in blocks of any size, as it is parsed at once,
exactly if at every place of it no length has a sign, the record is decoded,
and what is buffered for it has the length of an `int`. -/
theorem protodef_iff (new : PythonNew) (sch : Schema) (msgnum : UInt32)
    (uninit : Nat → UInt64) {blocksize : Nat} (content : Bytes)
    (h : 0 < blocksize) :
    ReadsRecords new sch msgnum uninit blocksize content ↔
      ∀ k rest, behindRecords k content = some rest →
        Processable new sch msgnum uninit blocksize content k rest := by
  have hstart := @stands_start blocksize content
  have hreads := @reads_iff new sch msgnum uninit blocksize content 0 content
    h _ hstart
  simp only [Nat.zero_add] at hreads
  constructor
  · intro hall
    exact hreads.mp hall.reads
  · intro hplaces
    refine ⟨hreads.mpr hplaces, ?_⟩
    intro s s' out hreach hmove
    have hinv := hreach.invariant
      (I := fun s => ∃ k rest, StandsAt blocksize content k rest s ∧
        ∀ j more, behindRecords j rest = some more →
          Processable new sch msgnum uninit blocksize content (k + j) more)
      (fun s s' o hs hmove => by
        obtain ⟨k, rest, hstands, hplaces⟩ := hs
        exact (advances_of_stands h hstands hplaces hmove).2)
      ⟨0, content, hstart, by simpa only [Nat.zero_add] using hplaces⟩
    obtain ⟨k, rest, hstands, hplaces⟩ := hinv
    exact (advances_of_stands h hstands hplaces hmove).1

/-- A length of 2^64 - 10, in ten bytes. -/
def hostileFile : Bytes := [0xf6, 255, 255, 255, 255, 255, 255, 255, 255, 1]

/-- A file that begins with a negative length. -/
theorem protodef_iff_hostile :
    ReadsRecords plainNew numberSchema 0 (fun _ => 0) 4096 hostileFile ↔
      ∀ k rest, behindRecords k hostileFile = some rest →
        Processable plainNew numberSchema 0 (fun _ => 0) 4096 hostileFile k
          rest :=
  protodef_iff plainNew numberSchema 0 (fun _ => 0) hostileFile (by decide)

/-- The loop with all of it in the buffer. -/
def hostileState (calls : Nat) : ProtodefState :=
  .inner ⟨⟨hostileFile, 10, true⟩, hostileFile, true, calls⟩ 0

/-- The length takes back the ten bytes that it stands in. -/
theorem hostile_round (calls : Nat) :
    protodefStep plainNew numberSchema 0 (fun _ => 0) 4096
        (hostileState calls)
      = .next (hostileState (calls + 1)) [⟨-10, [], some []⟩] := by
  have hword : decoderDecodeVarint (sliceFrom hostileFile 0)
      = .tuple (some (-10)) 10 := by
    decide +kernel
  have hslice : slice hostileFile (0 + (10 : Nat)) (0 + (10 : Nat) + -10)
      = [] := by
    decide
  have hdec : decoderDecode plainNew numberSchema 0 [] 0 = .dict [] none := rfl
  show innerRound plainNew numberSchema 0 (fun _ => 0)
    ⟨⟨hostileFile, 10, true⟩, hostileFile, true, calls⟩ 0 = _
  unfold innerRound printRecord
  dsimp only
  rw [if_neg (by decide), hword]
  dsimp only
  rw [if_neg (by decide), if_neg (by decide), hslice, hdec]
  rfl

/-- It is printed for ever. -/
theorem hostile_runs (calls : Nat) (out : List Printed) (r : ProtodefRet) :
    ¬ Halts (protodefStep plainNew numberSchema 0 (fun _ => 0) 4096)
      (hostileState calls) out r := by
  intro h
  generalize hs : hostileState calls = s at h
  induction h generalizing calls with
  | stop hm => rw [← hs, hostile_round] at hm; cases hm
  | step hm _ ih =>
      rw [← hs, hostile_round] at hm
      cases hm
      exact ih (calls + 1) rfl

/-- A file of ten bytes on which the loop does not end. -/
theorem hostile_file_loops :
    (∀ out r, ¬ Halts
      (protodefStep plainNew numberSchema 0 (fun _ => 0) 4096)
      (protodefStart hostileFile) out r) ∧
    ¬ ReadsRecords plainNew numberSchema 0 (fun _ => 0) 4096 hostileFile := by
  have hloops : ∀ out r, ¬ Halts
      (protodefStep plainNew numberSchema 0 (fun _ => 0) 4096)
      (protodefStart hostileFile) out r := by
    intro out r hhalts
    have hfirst : protodefStep plainNew numberSchema 0 (fun _ => 0) 4096
        (protodefStart hostileFile) = .next (hostileState 0) [] := rfl
    obtain ⟨out', -, hhalts'⟩ := (Exec.single hfirst).halts_iff.mp hhalts
    exact hostile_runs 0 out' r hhalts'
  refine ⟨hloops, ?_⟩
  intro hreads
  obtain ⟨out, r, hhalts, -⟩ := hreads.reads
  exact hloops out r hhalts

end Lwpb.Python
