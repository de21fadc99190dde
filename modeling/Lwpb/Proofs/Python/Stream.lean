/-
Records read back from a stream.

A stream that was written is the frames of its encoded records
(`writeAll_frames`). At the start of a frame a read takes the record out of
it (`read_frame`); with less than a length word left it ends the iteration
(`read_short`); and with a length word and less than the record it takes
what there is for the record (`read_cut`). The last is not what a reader of
a truncated stream should do: an iteration over a prefix yields the records
that lie in it, and counts no other, exactly if the prefix does not end
behind a length word (`truncated_stream_iff`). Records that are canonical
dicts read back, so that of their streams nothing else is asked
(`canonical_stream_iff`).
-/
import Lwpb.Python.Stream
import Lwpb.Proofs.Python.DictRoundTrip

namespace Lwpb.Python

open Machine Memory Slice

-- ============================================================= length words

/-- A record as it stands in a stream. -/
def frame (raw : Bytes) : Bytes := leBytes 4 raw.length ++ raw

/-- A stream of records. -/
def frames (raws : List Bytes) : Bytes := raws.flatMap frame

@[simp] theorem frame_length (raw : Bytes) :
    (frame raw).length = 4 + raw.length := by
  rw [frame, List.length_append, leBytes_length]

/-- What a writer puts into a local buffer of 64 bytes is read back. -/
theorem local_read {bs : Bytes} (hlen : bs.length ≤ 64) :
    ((Encoder2.emit ⟨fun _ => 0, 0, 64⟩ (some 0) 0 bs).bind fun r =>
        some (Memory.read r.1.mem 0 r.2.toNat)) = some bs := by
  have howns : (⟨fun _ => 0, 0, 64⟩ : Heap).Owns 0 bs.length :=
    .inr ⟨Nat.le_refl 0, by
      show 0 + bs.length ≤ 0 + 64
      omega⟩
  have hword : (UInt64.ofNat bs.length).toNat = bs.length :=
    UInt64.toNat_ofNat_of_lt' (Nat.lt_of_le_of_lt hlen (by decide))
  unfold Encoder2.emit
  rw [Heap.puts_of_owns howns, Option.map_some, Option.bind_some,
    UInt64.zero_add, hword]
  exact congrArg some (read_store bs)

/-- A length of 32 bits is written in four bytes. -/
theorem encoderEncode32bit_eq {value : Nat} (h : value < 2 ^ 32) :
    encoderEncode32bit value = some (leBytes 4 value) := by
  have hword : (UInt32.ofNat value).toNat = value := by
    rw [UInt32.toNat_ofNat']
    exact Nat.mod_eq_of_lt h
  unfold encoderEncode32bit
  rw [Encoder2.encode32bit_eq, hword]
  apply local_read
  rw [leBytes_length]
  omega

/-- And read back from them. -/
theorem decoderDecode32bit_word {value : Nat} (h : value < 2 ^ 32) :
    decoderDecode32bit (leBytes 4 value)
      = .ok (some (UInt32.ofNat value), 4) := by
  unfold decoderDecode32bit
  rw [leBytes_length, decode32bit_of_at (leBytes_length 4 value)
    (at_zero _) (by decide), le_leBytes, Nat.mod_eq_of_lt (by omega)]

/-- From fewer than four bytes nothing is read. -/
theorem decoderDecode32bit_short {buf : Bytes} (h : buf.length < 4) :
    decoderDecode32bit buf = .ok (none, 0) := by
  have hleft : bufLeft ⟨0, 0, buf.length⟩ < 4 := by
    show ptrDiff buf.length 0 < 4
    rw [ptrDiff_of_le (Nat.zero_le _)]
    exact h
  unfold decoderDecode32bit decode32bit
  rw [if_pos hleft]

-- ================================================================== writing

/-- A raw record is written behind the stream, in its frame. -/
theorem writeRaw_eq {stream raw : Bytes} (h : raw.length < 2 ^ 32) :
    writeRaw stream raw = some (stream ++ frame raw) := by
  unfold writeRaw frame
  rw [encoderEncode32bit_eq h]
  exact congrArg some (List.append_assoc ..)

/-- Raw records, written one after the other. -/
theorem writeRaw_all {raws : List Bytes} (h : ∀ raw ∈ raws,
    raw.length < 2 ^ 32) (stream : Bytes) :
    raws.foldlM writeRaw stream = some (stream ++ frames raws) := by
  induction raws generalizing stream with
  | nil => rw [frames, List.flatMap_nil, List.append_nil]; rfl
  | cons raw raws ih =>
      obtain ⟨hraw, hraws⟩ := List.forall_mem_cons.mp h
      rw [List.foldlM_cons, writeRaw_eq hraw]
      refine (ih hraws _).trans ?_
      rw [List.append_assoc]
      rfl

/-- So a stream is the frames of its records. -/
theorem written_frames {raws : List Bytes} {stream : Bytes}
    (h : ∀ raw ∈ raws, raw.length < 2 ^ 32)
    (hstream : raws.foldlM writeRaw [] = some stream) :
    stream = frames raws := by
  rw [writeRaw_all h] at hstream
  exact (Option.some.inj hstream).symm

-- ================================================================== reading

/-- What is left of the file of a reader. -/
def StreamReader.rest (rd : StreamReader) : Bytes :=
  rd.stream.data.drop rd.stream.pos

/-- The reader that read a length word and these bytes behind it. -/
def StreamReader.took (rd : StreamReader) (length : UInt32) (raw : Bytes) :
    StreamReader :=
  { rd.start with
    stream := { rd.stream with pos := rd.stream.pos + 4 + raw.length }
    currentLength := some length
    currentRaw := some raw
    currentNumber := rd.currentNumber + 1 }

/-- Reading moves the position by the bytes read. -/
theorem PyFile.behind_eq {f : PyFile} {n : Nat} {bs : Bytes}
    (h : f.read n = bs) : f.behind n = { f with pos := f.pos + bs.length } := by
  unfold behind
  rw [h]

/-- Behind a length word the reader takes what there is of the length. -/
theorem readRaw_word {rd : StreamReader} {n : Nat} {more : Bytes}
    (hn : n < 2 ^ 32) (h : rd.rest = leBytes 4 n ++ more) :
    rd.readRaw = .ok (rd.took (UInt32.ofNat n) (more.take n)) := by
  have hword : rd.stream.read 4 = leBytes 4 n := by
    unfold PyFile.read
    rw [show rd.stream.data.drop rd.stream.pos = _ from h]
    exact List.take_left' (leBytes_length 4 n)
  have hmore : rd.stream.data.drop (rd.stream.pos + 4) = more := by
    rw [← List.drop_drop, show rd.stream.data.drop rd.stream.pos = _ from h]
    exact List.drop_left' (leBytes_length 4 n)
  have hbehind : rd.stream.behind 4
      = { rd.stream with pos := rd.stream.pos + 4 } := by
    rw [PyFile.behind_eq hword, leBytes_length]
  have hlength : (UInt32.ofNat n).toNat = n := by
    rw [UInt32.toNat_ofNat']
    exact Nat.mod_eq_of_lt hn
  have hraw : (rd.stream.behind 4).read n = more.take n := by
    rw [hbehind]
    exact congrArg (List.take n) hmore
  unfold StreamReader.readRaw
  simp only [StreamReader.start, hword, decoderDecode32bit_word hn, hlength,
    hraw, PyFile.behind_eq hraw]
  rw [hbehind]
  rfl

/-- With less than a length word left, the reader is at its end. -/
theorem readRaw_short {rd : StreamReader} (h : rd.rest.length < 4) :
    ∃ rd', rd.readRaw = .ok rd' ∧ rd'.eof = true ∧ rd'.currentRaw = none ∧
      rd'.currentRecord = none ∧ rd'.currentNumber = rd.currentNumber := by
  have hshort : (rd.stream.read 4).length < 4 := by
    unfold PyFile.read
    rw [List.length_take]
    exact Nat.lt_of_le_of_lt (Nat.min_le_right _ _) h
  unfold StreamReader.readRaw
  simp only [StreamReader.start, decoderDecode32bit_short hshort]
  exact ⟨_, rfl, rfl, rfl, rfl, rfl⟩

/-- After a record is taken, what follows it is left. -/
theorem took_rest {rd : StreamReader} {length : UInt32} {n : Nat}
    {more : Bytes} (h : rd.rest = leBytes 4 n ++ more) :
    (rd.took length (more.take n)).rest = more.drop n := by
  show rd.stream.data.drop (rd.stream.pos + 4 + (more.take n).length) = _
  rw [Nat.add_assoc, ← List.drop_drop,
    show rd.stream.data.drop rd.stream.pos = _ from h, ← List.drop_drop,
    List.drop_left' (leBytes_length 4 n), List.length_take]
  rcases Nat.le_total n more.length with hle | hle
  · rw [Nat.min_eq_left hle]
  · rw [Nat.min_eq_right hle, List.drop_length, List.drop_eq_nil_of_le hle]

variable {new : PythonNew} {sch : Schema} {msgnum : UInt32}

/-- With less than a length word left, a read notes the end. -/
theorem read_short {rd : StreamReader} (u : UInt64)
    (h : rd.rest.length < 4) :
    ∃ rd', rd.read new sch msgnum u = .ok rd' ∧ rd'.eof = true ∧
      rd'.currentRecord = none ∧ rd'.currentNumber = rd.currentNumber := by
  obtain ⟨rd', hraw, heof, hnone, hrecord, hnumber⟩ := readRaw_short h
  refine ⟨rd', ?_, heof, hrecord, hnumber⟩
  unfold StreamReader.read
  rw [hraw]
  simp only [hnone]

/-- A read that finds a length word decodes what it took. -/
theorem read_word {rd : StreamReader} {n : Nat} {more : Bytes} (u : UInt64)
    (hn : n < 2 ^ 32) (h : rd.rest = leBytes 4 n ++ more) :
    rd.read new sch msgnum u =
      match decoderDecode new sch u (more.take n) msgnum with
      | .dict items none => .ok
          { rd.took (UInt32.ofNat n) (more.take n) with
            currentRecord := some items }
      | .dict _ (some error) => .raised error
      | .none => .ok
          { rd.took (UInt32.ofNat n) (more.take n) with currentRecord := none }
      | .null error => .raised error
      | .abort => .abort
      | .fault => .fault := by
  unfold StreamReader.read
  rw [readRaw_word hn h]
  rfl

/-- A read counts the record that it returns. -/
theorem read_counts {rd rd' : StreamReader} {u : UInt64}
    (h : rd.read new sch msgnum u = .ok rd') :
    rd.currentNumber + rd'.currentRecord.toList.length
      ≤ rd'.currentNumber := by
  unfold StreamReader.read StreamReader.readRaw at h
  cases hword : decoderDecode32bit (rd.start.stream.read 4) with
  | err e => simp only [hword] at h; cases h
  | fault f => simp only [hword] at h; cases h
  | ok word =>
      obtain ⟨length, used⟩ := word
      cases length with
      | none =>
          simp only [hword] at h
          cases h
          exact le_of_eq (Int.add_zero _)
      | some length =>
          simp only [hword] at h
          split at h
          · cases h
            exact Int.le_refl _
          · cases h
          · cases h
            show rd.currentNumber + 0 ≤ rd.currentNumber + 1
            omega
          · cases h
          · cases h
          · cases h

-- =============================================================== iterations

section Iterating

variable {uninit : Nat → UInt64}

/-- One call of `next`: the end is looked at before the record is read. -/
theorem iterStep_eq (rd : StreamReader) :
    iterStep new sch msgnum uninit rd =
      if rd.eof then .halt (.stop rd) []
      else
        match rd.read new sch msgnum
          (uninit (rd.currentNumber + 1).toNat) with
        | .ok rd => .next rd rd.currentRecord.toList
        | .raised error => .halt (.raised error) []
        | .abort => .halt .abort []
        | .fault => .halt .fault [] := by
  unfold iterStep forStep
  cases rd.eof with
  | true => rfl
  | false =>
      cases rd.read new sch msgnum (uninit (rd.currentNumber + 1).toNat) with
      | ok rd =>
          cases hrecord : rd.currentRecord with
          | none => simp only [hrecord, Option.toList_none]
          | some record => simp only [hrecord, Option.toList_some]
      | raised error => rfl
      | abort => rfl
      | fault => rfl

/-- An iteration counts what it yields. -/
theorem iterate_counts {rd rd' : StreamReader} {yields : List Items}
    (h : Halts (iterStep new sch msgnum uninit) rd yields (.stop rd')) :
    rd.currentNumber + yields.length ≤ rd'.currentNumber := by
  generalize hr : IterRet.stop rd' = r at h
  induction h with
  | @stop rd₁ o r hstop =>
      subst hr
      rw [iterStep_eq] at hstop
      split at hstop
      · cases hstop
        exact le_of_eq (Int.add_zero _)
      · split at hstop
        · cases hstop
        · cases hstop
        · cases hstop
        · cases hstop
  | @step rd₁ rd₂ o o' r hstep _ ih =>
      have hrest := ih hr
      rw [iterStep_eq] at hstep
      split at hstep
      · cases hstep
      · split at hstep
        · next hread =>
            cases hstep
            have hone := read_counts hread
            rw [List.length_append]
            omega
        · cases hstep
        · cases hstep
        · cases hstep

/-- A turn that reads a record. -/
theorem iterStep_read {rd : StreamReader} (h : rd.eof = false) :
    iterStep new sch msgnum uninit rd =
      match rd.read new sch msgnum (uninit (rd.currentNumber + 1).toNat) with
      | .ok rd => .next rd rd.currentRecord.toList
      | .raised error => .halt (.raised error) []
      | .abort => .halt .abort []
      | .fault => .halt .fault [] := by
  rw [iterStep_eq, h]
  rfl

/-- With less than a length word left a loop ends, and nothing is yielded or
counted. -/
theorem forStep_short {ε : Type}
    {body : StreamReader → Items → Except PyErr (List ε)}
    {rd : StreamReader} (heof : rd.eof = false) (h : rd.rest.length < 4) :
    ∃ rd', Halts (forStep new sch msgnum body uninit) rd [] (.stop rd') ∧
      rd'.currentNumber = rd.currentNumber := by
  obtain ⟨rd', hread, heof', hrecord, hnumber⟩ := @read_short new sch msgnum
    rd (uninit (rd.currentNumber + 1).toNat) h
  have hstep : forStep new sch msgnum body uninit rd = .next rd' [] := by
    unfold forStep
    rw [heof, hread]
    simp only [hrecord]
    rfl
  have hstop : forStep new sch msgnum body uninit rd'
      = .halt (.stop rd') [] := by
    unfold forStep
    rw [heof']
    rfl
  exact ⟨rd', .step hstep (.stop hstop), hnumber⟩

/-- The reader behind a record that was decoded to `record`. -/
def StreamReader.holds (rd : StreamReader) (n : Nat) (more : Bytes)
    (record : Option Items) : StreamReader :=
  { rd.took (UInt32.ofNat n) (more.take n) with currentRecord := record }

theorem holds_counts {rd : StreamReader} {n : Nat} {more : Bytes}
    {record : Option Items} :
    (rd.holds n more record).currentNumber = rd.currentNumber + 1 := rfl

/-- After a record is held, the rest is what follows its frame. -/
theorem holds_rest {rd : StreamReader} {raw more : Bytes}
    {record : Option Items} (h : rd.rest = frame raw ++ more) :
    (rd.holds raw.length (raw ++ more) record).rest = more := by
  have hword : rd.rest = leBytes 4 raw.length ++ (raw ++ more) := by
    rw [h, frame, List.append_assoc]
  have htook : (rd.took (UInt32.ofNat raw.length)
      ((raw ++ more).take raw.length)).rest = (raw ++ more).drop raw.length :=
    took_rest hword
  exact htook.trans List.drop_left

/-- A record that is decoded is yielded. -/
theorem iterate_dict {rd rd' : StreamReader} {yields : List Items} {n : Nat}
    {more : Bytes} {items : Items} (heof : rd.eof = false) (hn : n < 2 ^ 32)
    (hrest : rd.rest = leBytes 4 n ++ more)
    (hdec : decoderDecode new sch (uninit (rd.currentNumber + 1).toNat)
      (more.take n) msgnum = .dict items none)
    (h : Halts (iterStep new sch msgnum uninit)
      (rd.holds n more (some items)) yields (.stop rd')) :
    Halts (iterStep new sch msgnum uninit) rd (items :: yields)
      (.stop rd') := by
  have hstep : iterStep new sch msgnum uninit rd
      = .next (rd.holds n more (some items)) [items] := by
    rw [iterStep_read heof, read_word _ hn hrest, hdec]
    rfl
  exact .step hstep h

/-- An iteration that comes to its end at a length word decoded what is
behind the word, and counted it. -/
theorem iterate_word {rd rd' : StreamReader} {yields : List Items} {n : Nat}
    {more : Bytes} (heof : rd.eof = false) (hn : n < 2 ^ 32)
    (hrest : rd.rest = leBytes 4 n ++ more)
    (h : Halts (iterStep new sch msgnum uninit) rd yields (.stop rd')) :
    (∃ items yields', yields = items :: yields' ∧
      decoderDecode new sch (uninit (rd.currentNumber + 1).toNat)
        (more.take n) msgnum = .dict items none ∧
      Halts (iterStep new sch msgnum uninit) (rd.holds n more (some items))
        yields' (.stop rd')) ∨
    Halts (iterStep new sch msgnum uninit) (rd.holds n more none) yields
      (.stop rd') := by
  have hturn : iterStep new sch msgnum uninit rd = _ := iterStep_read heof
  rw [read_word _ hn hrest] at hturn
  cases hdec : decoderDecode new sch (uninit (rd.currentNumber + 1).toNat)
      (more.take n) msgnum with
  | dict items pending =>
      rw [hdec] at hturn
      cases pending with
      | none =>
          obtain ⟨yields', hyields, hh⟩ := (Exec.single hturn).halts_iff.mp h
          exact .inl ⟨items, yields', hyields, rfl, hh⟩
      | some error => exact absurd (h.unique (.stop hturn)).2 nofun
  | none =>
      rw [hdec] at hturn
      obtain ⟨yields', rfl, hh⟩ := (Exec.single hturn).halts_iff.mp h
      exact .inr hh
  | null error =>
      rw [hdec] at hturn
      exact absurd (h.unique (.stop hturn)).2 nofun
  | abort =>
      rw [hdec] at hturn
      exact absurd (h.unique (.stop hturn)).2 nofun
  | fault =>
      rw [hdec] at hturn
      exact absurd (h.unique (.stop hturn)).2 nofun

end Iterating

-- =============================================================== truncation

/-- How many records lie completely in the first `n` bytes of a stream. -/
def complete : List Bytes → Nat → Nat
  | [], _ => 0
  | raw :: raws, n =>
      if n < (frame raw).length then 0
      else complete raws (n - (frame raw).length) + 1

/-- How many bytes are behind the last of them. -/
def leftover : List Bytes → Nat → Nat
  | [], n => n
  | raw :: raws, n =>
      if n < (frame raw).length then n
      else leftover raws (n - (frame raw).length)

/-- A record lies completely in the first `n` bytes if it ends there. -/
theorem lt_complete_iff {raws : List Bytes} {i n : Nat}
    (hi : i < raws.length) :
    i < complete raws n ↔ (frames (raws.take (i + 1))).length ≤ n := by
  induction raws generalizing i n with
  | nil => exact absurd hi (Nat.not_lt_zero i)
  | cons raw raws ih =>
      have hframes : (frames ((raw :: raws).take (i + 1))).length
          = (frame raw).length + (frames (raws.take i)).length := by
        rw [List.take_succ_cons, frames, List.flatMap_cons,
          List.length_append]
        rfl
      rw [hframes]
      unfold complete
      cases i with
      | zero =>
          rw [List.take_zero, show (frames ([] : List Bytes)).length = 0
            from rfl]
          split <;> omega
      | succ i =>
          have hlen : i < raws.length := Nat.lt_of_succ_lt_succ hi
          split
          · next hlt => exact iff_of_false (Nat.not_lt_zero _) (by omega)
          · next hle =>
              rw [Nat.succ_lt_succ_iff, ih hlen]
              omega

/-- The complete records of a cut stream and what is left of the next one make
up the cut. -/
theorem complete_leftover (raws : List Bytes) (n : Nat) :
    (frames (raws.take (complete raws n))).length + leftover raws n = n := by
  induction raws generalizing n with
  | nil => exact Nat.zero_add n
  | cons raw raws ih =>
      unfold complete leftover
      split
      · exact Nat.zero_add n
      · next hle =>
          rw [List.take_succ_cons, frames, List.flatMap_cons,
            List.length_append]
          have hrest := ih (n - (frame raw).length)
          unfold frames at hrest
          omega

/-- A record that was written: the call, and the encoding that went into
the stream. -/
structure Written (py : PythonApi) (sch : Schema) (msgnum : UInt32) where
  call : WriteCall
  raw : Bytes
  encoded : call.encoded py sch msgnum = .string raw none
  short : raw.length < 2 ^ 32

variable {py : PythonApi} {value : Nat → Scalar}

/-- What was written is the frames of the records. -/
theorem streamWrite_all (records : List (Written py sch msgnum))
    (stream : Bytes) :
    (records.map (·.call)).foldlM (streamWrite py sch msgnum) stream
      = some (stream ++ frames (records.map (·.raw))) := by
  have hwrite : ∀ (w : Written py sch msgnum) stream,
      streamWrite py sch msgnum stream w.call = writeRaw stream w.raw := by
    intro w stream
    unfold streamWrite
    rw [w.encoded]
  have hshort : ∀ raw ∈ records.map (·.raw), raw.length < 2 ^ 32 := by
    intro raw hraw
    obtain ⟨w, -, rfl⟩ := List.mem_map.mp hraw
    exact w.short
  rw [← writeRaw_all hshort, List.foldlM_map, List.foldlM_map]
  simp only [hwrite]

/-- The decoder gives the record back. -/
def ReadsBack (new : PythonNew) (value : Nat → Scalar) (uninit : UInt64)
    (w : Written py sch msgnum) : Prop :=
  ∃ items, decoderDecode new sch uninit w.raw msgnum = .dict items none ∧
    Same value (.dict w.call.record) (.dict items)

/-- An iteration yields these records and ends, and has counted them. -/
def Yields (new : PythonNew) (value : Nat → Scalar) (uninit : Nat → UInt64)
    (rd : StreamReader) (records : List (Written py sch msgnum)) : Prop :=
  ∃ yields rd', Halts (iterStep new sch msgnum uninit) rd yields (.stop rd') ∧
    List.Forall₂ (fun w items => Same value (.dict w.call.record)
      (.dict items)) records yields ∧
    rd'.currentNumber = rd.currentNumber + records.length

/-- A prefix that reaches behind a part begins with the part. -/
theorem split_prefix {p bs cs : Bytes} (hp : p <+: bs ++ cs)
    (hlen : bs.length ≤ p.length) : ∃ p', p = bs ++ p' ∧ p' <+: cs := by
  obtain ⟨p', rfl⟩ := List.prefix_of_prefix_length_le
    (List.prefix_append bs cs) hp hlen
  exact ⟨p', rfl, (List.prefix_append_right_inj bs).mp hp⟩

section Truncating

variable {uninit : Nat → UInt64}

/-- With fewer than four bytes left, nothing more is yielded. -/
theorem yields_short {rd : StreamReader} (heof : rd.eof = false)
    (h : rd.rest.length < 4) :
    Yields new value uninit rd ([] : List (Written py sch msgnum)) := by
  obtain ⟨rd', hhalts, hnumber⟩ := @forStep_short new sch msgnum uninit _
    (fun _ record => .ok [record]) rd heof h
  exact ⟨[], rd', hhalts, .nil, by rw [hnumber]; exact (Int.add_zero _).symm⟩

/-- A length word without its record is counted as a record. -/
theorem not_yields_cut {rd : StreamReader} {n : Nat} {more : Bytes}
    (heof : rd.eof = false) (hn : n < 2 ^ 32)
    (hrest : rd.rest = leBytes 4 n ++ more) :
    ¬ Yields new value uninit rd ([] : List (Written py sch msgnum)) := by
  intro h
  obtain ⟨yields, rd', hhalts, hsame, hnumber⟩ := h
  have hcounts : rd.currentNumber + 1 ≤ rd'.currentNumber := by
    rcases iterate_word heof hn hrest hhalts with ⟨items, yields', -, -, hh⟩
      | hh
    · have hle := iterate_counts hh
      rw [holds_counts] at hle
      omega
    · have hle := iterate_counts hh
      rw [holds_counts] at hle
      omega
  rw [hnumber, List.length_nil] at hcounts
  omega

/-- A whole record is yielded exactly if the decoder gives it back. -/
theorem yields_cons {rd : StreamReader} {w : Written py sch msgnum}
    {ws : List (Written py sch msgnum)} {p : Bytes} {j : Nat}
    (heof : rd.eof = false) (hrest : rd.rest = frame w.raw ++ p)
    (hj : rd.currentNumber + 1 = j) :
    Yields new value uninit rd (w :: ws) ↔ ∃ items,
      decoderDecode new sch (uninit j) w.raw msgnum = .dict items none ∧
      Same value (.dict w.call.record) (.dict items) ∧
      Yields new value uninit
        (rd.holds w.raw.length (w.raw ++ p) (some items)) ws := by
  have hword : rd.rest = leBytes 4 w.raw.length ++ (w.raw ++ p) := by
    rw [hrest, frame, List.append_assoc]
  have hindex : (rd.currentNumber + 1).toNat = j := by
    rw [hj]
    rfl
  have htake : (w.raw ++ p).take w.raw.length = w.raw := List.take_left
  constructor
  · intro h
    obtain ⟨yields, rd', hhalts, hsame, hnumber⟩ := h
    rcases iterate_word heof w.short hword hhalts with
      ⟨items, yields', rfl, hdec, hh⟩ | hh
    · rw [htake, hindex] at hdec
      obtain ⟨hhead, htail⟩ := List.forall₂_cons.mp hsame
      refine ⟨items, hdec, hhead, yields', rd', hh, htail, ?_⟩
      rw [hnumber, holds_counts, List.length_cons]
      omega
    · -- more is yielded than was counted
      have hle := iterate_counts hh
      rw [← hsame.length_eq, hnumber, holds_counts] at hle
      omega
  · intro h
    obtain ⟨items, hdec, hhead, yields, rd', hhalts, htail, hnumber⟩ := h
    rw [← htake, ← hindex] at hdec
    refine ⟨items :: yields, rd', iterate_dict heof w.short hword hdec hhalts,
      .cons hhead htail, ?_⟩
    rw [hnumber, holds_counts, List.length_cons]
    omega

/-- What an iteration yields, from the start of a record on. -/
theorem yields_iff {records : List (Written py sch msgnum)}
    {rd : StreamReader} {p : Bytes} {j : Nat} (heof : rd.eof = false)
    (hrest : rd.rest = p) (hp : p <+: frames (records.map (·.raw)))
    (hj : rd.currentNumber + 1 = j) :
    Yields new value uninit rd
        (records.take (complete (records.map (·.raw)) p.length)) ↔
      leftover (records.map (·.raw)) p.length < 4 ∧
        ∀ i w, records[i]? = some w →
          i < complete (records.map (·.raw)) p.length →
          ReadsBack new value (uninit (j + i)) w := by
  induction records generalizing rd p j with
  | nil =>
      obtain rfl := List.prefix_nil.mp hp
      refine iff_of_true (yields_short heof ?_) ⟨Nat.zero_lt_succ 3, nofun⟩
      rw [hrest]
      decide
  | cons w ws ih =>
      rw [List.map_cons]
      unfold complete leftover
      by_cases hwhole : p.length < (frame w.raw).length
      · rw [if_pos hwhole, if_pos hwhole]
        by_cases hshort : p.length < 4
        · exact iff_of_true (yields_short heof (by rw [hrest]; exact hshort))
            ⟨hshort, fun i _ _ hi => absurd hi (Nat.not_lt_zero i)⟩
        · have hcut : p <+: leBytes 4 w.raw.length ++
              (w.raw ++ frames (ws.map (·.raw))) := by
            rw [← List.append_assoc]
            exact hp
          obtain ⟨part, hpart, -⟩ := split_prefix hcut
            (by rw [leBytes_length]; omega)
          exact iff_of_false
            (not_yields_cut heof w.short (hrest.trans hpart))
            fun h => hshort h.1
      · rw [if_neg hwhole, if_neg hwhole, List.take_succ_cons]
        have hcons : p <+: frame w.raw ++ frames (ws.map (·.raw)) := hp
        obtain ⟨p', rfl, hp'⟩ := split_prefix hcons (Nat.le_of_not_lt hwhole)
        rw [yields_cons heof hrest hj]
        have hlen : (frame w.raw ++ p').length - (frame w.raw).length
            = p'.length := by
          rw [List.length_append]
          omega
        rw [hlen]
        have hnext : ∀ items, Yields new value uninit
            (rd.holds w.raw.length (w.raw ++ p') (some items))
            (ws.take (complete (ws.map (·.raw)) p'.length)) ↔ _ :=
          fun items => @ih (rd.holds w.raw.length (w.raw ++ p') (some items))
            p' (j + 1) heof (holds_rest hrest) hp'
            (by rw [holds_counts, hj]; rfl)
        simp only [hnext]
        constructor
        · intro h
          obtain ⟨items, hdec, hsame, hleft, hback⟩ := h
          refine ⟨hleft, fun i w' hw hi => ?_⟩
          cases i with
          | zero =>
              obtain rfl : w = w' := Option.some.inj hw
              exact ⟨items, hdec, hsame⟩
          | succ i =>
              rw [← Nat.add_assoc, Nat.add_right_comm]
              exact hback i w' hw (Nat.lt_of_succ_lt_succ hi)
        · intro h
          obtain ⟨hleft, hback⟩ := h
          obtain ⟨items, hdec, hsame⟩ := hback 0 w rfl (Nat.succ_pos _)
          refine ⟨items, hdec, hsame, hleft, fun i w' hw hi => ?_⟩
          rw [Nat.add_right_comm, Nat.add_assoc]
          exact hback (i + 1) w' hw (Nat.succ_lt_succ hi)

end Truncating

/-- Of a truncated stream the reader yields the records that lie in it, and
counts them, exactly if the cut is not behind a length word and the decoder
gives these records back. -/
theorem truncated_stream_iff (new : PythonNew) (value : Nat → Scalar)
    (uninit : Nat → UInt64) (tells : Bool)
    (records : List (Written py sch msgnum)) {stream p : Bytes}
    (hstream : (records.map (·.call)).foldlM (streamWrite py sch msgnum) []
      = some stream) (hp : p <+: stream) :
    Yields new value uninit (.init ⟨p, 0, tells⟩)
        (records.take (complete (records.map (·.raw)) p.length)) ↔
      leftover (records.map (·.raw)) p.length < 4 ∧
        ∀ i w, records[i]? = some w →
          i < complete (records.map (·.raw)) p.length →
          ReadsBack new value (uninit i) w := by
  rw [streamWrite_all] at hstream
  obtain rfl := Option.some.inj hstream
  have hiff := @yields_iff new sch msgnum py value uninit records
    (.init ⟨p, 0, tells⟩) p 0 rfl rfl hp rfl
  simpa only [Nat.zero_add] using hiff

section Canonically

variable {t : Tree} (hlaw : Lawful py new value)
  (hm : msgnum.toNat < sch.msgs.length) (hnames : sch.DistinctNames)
  (hdistinct : sch.Distinct) (hnum : sch.SmallNumbers)
  (hpacked : sch.PackedNumeric) (hno : sch.NoLong)

include hlaw hm hnames hdistinct hnum hpacked hno

/-- A record that is a canonical dict reads back: what was written is the
protocol buffer of the message that the dict spells. -/
theorem readsBack_of_spells {w : Written py sch msgnum} (uninit : UInt64)
    (hcanon : Canonical value sch msgnum.toNat (.dict w.call.record))
    (ht : Spells py sch (.dict w.call.record) msgnum.toNat t)
    (hdepth : t.nesting ≤ maxDepth)
    (hlen : (t.wire sch).bytes.length < 2 ^ 31)
    (hcalloc : ∀ n, w.call.calloc n ≠ none) :
    ReadsBack new value uninit w := by
  have hround := @spelled_round_trips py new value sch msgnum w.call.record
    w.call.garbage w.call.calloc t hlaw hm hnames hdistinct hnum hpacked hno
    hcanon ht hdepth hlen hcalloc
  obtain ⟨hencode, hdecode, hsame⟩ := hround
  have hraw : w.raw = (t.wire sch).bytes :=
    (Encoded.string.inj (w.encoded.symm.trans hencode)).1
  refine ⟨t.fill new sch [], ?_, hsame⟩
  rw [hraw]
  exact hdecode uninit

/-- Of a stream of canonical dicts an iteration over a prefix yields the
records that lie in it, and counts them, exactly if the cut is not behind a
length word. -/
theorem canonical_stream_iff {uninit : Nat → UInt64} {tells : Bool}
    {records : List (Written py sch msgnum)} {stream p : Bytes}
    (hstream : (records.map (·.call)).foldlM (streamWrite py sch msgnum) []
      = some stream) (hp : p <+: stream)
    (hcanon : ∀ w ∈ records,
      Canonical value sch msgnum.toNat (.dict w.call.record))
    (hsize : ∀ w ∈ records, ∀ t,
      Spells py sch (.dict w.call.record) msgnum.toNat t →
      t.nesting ≤ maxDepth ∧ (t.wire sch).bytes.length < 2 ^ 31)
    (hcalloc : ∀ w ∈ records, ∀ n, w.call.calloc n ≠ none) :
    Yields new value uninit (.init ⟨p, 0, tells⟩)
        (records.take (complete (records.map (·.raw)) p.length)) ↔
      leftover (records.map (·.raw)) p.length < 4 := by
  rw [streamWrite_all] at hstream
  obtain rfl := Option.some.inj hstream
  have hiff := @yields_iff new sch msgnum py value uninit records
    (.init ⟨p, 0, tells⟩) p 0 rfl rfl hp rfl
  refine hiff.trans (and_iff_left fun i w hw _ => ?_)
  have hmem : w ∈ records := List.mem_of_getElem? hw
  obtain ⟨t, ht⟩ := canonical_spells hlaw hno hpacked (hcanon w hmem)
    (Nat.le_refl _)
  obtain ⟨hdepth, hlen⟩ := hsize w hmem t ht
  exact readsBack_of_spells hlaw hm hnames hdistinct hnum hpacked hno _
    (hcanon w hmem) ht hdepth hlen (hcalloc w hmem)

end Canonically

deriving instance DecidableEq for Encoded

/-- A number and a submessage with a packed run, written. -/
def plainWritten : Written plainPython sampleSchema 0 where
  call := ⟨plainDict, noScratch, fun _ => some 4096⟩
  raw := [8, 9, 18, 4, 26, 2, 172, 2]
  encoded := by decide +kernel
  short := by decide

/-- Two strings, the second of them empty. -/
def stringsDict : Items :=
  [("str", .list [.other (plainId (.str [104, 105])),
    .other (plainId (.str []))])]

def stringsWritten : Written plainPython sampleSchema 0 where
  call := ⟨stringsDict, noScratch, fun _ => some 4096⟩
  raw := [34, 2, 104, 105, 34, 0]
  encoded := by decide +kernel
  short := by decide

/-- The dict with two strings is canonical. -/
theorem stringsDict_canonical :
    Canonical plainValue sampleSchema 0 (.dict stringsDict) := by
  refine canonical_of_items (by decide) (List.forall_mem_singleton.mpr
    ⟨sampleSchema.field ⟨0, 3⟩, by decide, rfl, ?_⟩)
  exact {
    list := fun _ => ⟨_, rfl, List.cons_ne_nil _ _⟩
    single := fun hrep => absurd rfl hrep
    scalars := fun _ => List.forall_mem_cons.mpr
      ⟨isValue_plain (show 2 < 2 ^ 31 by decide),
        List.forall_mem_singleton.mpr
          (isValue_plain (show 0 < 2 ^ 31 by decide))⟩
    messages := fun hmsg => absurd hmsg (by decide) }

/-- It is spelled by two scalars of one field. -/
theorem stringsDict_spells :
    Spells plainPython sampleSchema (.dict stringsDict) 0
      (.scalar ⟨0, 3⟩ (.string [104, 105])
        (.scalar ⟨0, 3⟩ (.string []) .nil)) :=
  spell_spells (by decide +kernel)

/-- Three records, cut two bytes behind the second: the first two are
yielded. -/
theorem truncated_stream_iff_cut :
    Yields plainNew plainValue (fun _ => 0)
      (.init ⟨[8, 0, 0, 0, 8, 9, 18, 4, 26, 2, 172, 2,
        6, 0, 0, 0, 34, 2, 104, 105, 34, 0, 8, 0], 0, true⟩)
      [plainWritten, stringsWritten] := by
  have hplain : ReadsBack plainNew plainValue 0 plainWritten :=
    readsBack_of_spells plain_lawful (by decide) (by decide) (by decide)
      (by decide) (by decide) (by decide) 0 plainDict_canonical
      plainDict_spells (by decide) (by decide) fun _ => Option.some_ne_none _
  have hstrings : ReadsBack plainNew plainValue 0 stringsWritten :=
    readsBack_of_spells plain_lawful (by decide) (by decide) (by decide)
      (by decide) (by decide) (by decide) 0 stringsDict_canonical
      stringsDict_spells (by decide) (by decide)
      fun _ => Option.some_ne_none _
  have hback : ∀ (i : Nat) (w : Written plainPython sampleSchema 0),
      [plainWritten, stringsWritten, plainWritten][i]? = some w →
      ReadsBack plainNew plainValue 0 w := by
    intro i w hw
    rcases List.mem_cons.mp (List.mem_of_getElem? hw) with rfl | hw
    · exact hplain
    · rcases List.mem_cons.mp hw with rfl | hw
      · exact hstrings
      · rw [List.mem_singleton.mp hw]
        exact hplain
  have hiff := truncated_stream_iff plainNew plainValue (fun _ => 0) true
    [plainWritten, stringsWritten, plainWritten]
    (streamWrite_all [plainWritten, stringsWritten, plainWritten] [])
    (p := [8, 0, 0, 0, 8, 9, 18, 4, 26, 2, 172, 2,
      6, 0, 0, 0, 34, 2, 104, 105, 34, 0, 8, 0]) (by decide)
  exact hiff.mpr ⟨by decide, fun i w hw _ => hback i w hw⟩

/-- A message with one number. -/
def numberSchema : Schema := ⟨[⟨[⟨1, ⟨.optional, .int32, 0⟩, none, "a"⟩]⟩]⟩

/-- The number 5, written. -/
def numberWritten : Written plainPython numberSchema 0 where
  call := ⟨[("a", .other (plainId (.int 5)))],
    fun _ => ⟨⟨0, .ext fun _ => 0, 0⟩, 0⟩, fun _ => some 0⟩
  raw := [8, 5]
  encoded := by decide +kernel
  short := by decide

/-- A stream that ends behind the length word of its only record: an empty
record is yielded and counted. -/
theorem cut_stream_yields_empty :
    (∃ rd, Halts (iterStep plainNew numberSchema 0 fun _ => 0)
        (.init ⟨[2, 0, 0, 0], 0, true⟩) [[]] (.stop rd) ∧
      rd.currentNumber = 0) ∧
    [2, 0, 0, 0] <+: frames [numberWritten.raw] ∧
    ¬ Yields plainNew plainValue (fun _ => 0) (.init ⟨[2, 0, 0, 0], 0, true⟩)
      ([numberWritten].take (complete [numberWritten.raw] 4)) := by
  have hrest : (StreamReader.init ⟨[2, 0, 0, 0], 0, true⟩).rest
      = leBytes 4 2 ++ [] := by decide
  refine ⟨?_, by decide, not_yields_cut rfl (by decide) hrest⟩
  obtain ⟨rd, hhalts, hnumber⟩ := @forStep_short plainNew numberSchema 0
    (fun _ => 0) _ (fun _ record => .ok [record])
    ((StreamReader.init ⟨[2, 0, 0, 0], 0, true⟩).holds 2 [] (some [])) rfl
    (by decide)
  exact ⟨rd, iterate_dict rfl (by decide) hrest rfl hhalts, hnumber⟩

end Lwpb.Python
