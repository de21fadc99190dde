/-
A content that is parsed at once, and the front of one.

The first record of a content is a length, as a varint, and that many bytes
(`firstRecord`); `parseRecords` takes records as long as a whole one is
there. What the front of a content holds is in the content the same: a
varint that ends in the front is read there as in the content
(`decodeVarintLoop_front`), and so is a record (`firstRecord_append`,
`firstRecord_front`). How far a file is read, in blocks, when some of it has
to be there is `readTo`.

The module knows nothing of the loop that reads the file. It is what that
loop is compared with: a recursion over the content, which ends because a
record has a byte at least (`firstRecord_shorter`), and facts about
fronts, by which a buffer that holds a part of the file can be reasoned
about as if it held all of it.
-/
import Lwpb.Python.Protodef
import Lwpb.Proofs.Decoder.Readers

namespace Lwpb.Python

open Machine

-- =================================================== a content parsed at once

/-- A record of a file. -/
structure FileRecord where
  length : UInt64
  payload : Bytes
  deriving Repr, DecidableEq

/-- The length in front of a content, and what is behind it. -/
def lengthWord (content : Bytes) : Option (UInt64 × Bytes) :=
  match decodeVarint content ⟨0, 0, content.length⟩ with
  | .ok (length, buf) => some (length, content.drop buf.pos)
  | _ => none

/-- The record in front of a content, if the whole of it is there, and what
is behind it. -/
def firstRecord (content : Bytes) : Option (FileRecord × Bytes) := do
  let (length, more) ← lengthWord content
  if length.toNat ≤ more.length then
    some (⟨length, more.take length.toNat⟩, more.drop length.toNat)
  else none

/-- A length word takes at least one byte. -/
theorem lengthWord_shorter {content more : Bytes} {length : UInt64}
    (h : lengthWord content = some (length, more)) :
    more.length < content.length := by
  unfold lengthWord at h
  split at h
  · next value buf hread =>
      obtain ⟨-, hpos, hlen, -⟩ := decodeVarint_ok hread
      cases h
      rw [List.length_drop]
      have : (0 : Nat) < buf.pos := hpos
      omega
  · cases h

/-- A record is read when its length and all its bytes are there. -/
theorem firstRecord_eq_some {content more : Bytes} {r : FileRecord} :
    firstRecord content = some (r, more) ↔
      ∃ behind, lengthWord content = some (r.length, behind) ∧
        r.length.toNat ≤ behind.length ∧
        r.payload = behind.take r.length.toNat ∧
        more = behind.drop r.length.toNat := by
  unfold firstRecord
  cases hword : lengthWord content with
  | none => simp
  | some word =>
      obtain ⟨length, behind⟩ := word
      simp only [Option.bind_eq_bind, Option.bind_some, Option.some.injEq,
        Prod.mk.injEq]
      constructor
      · intro h
        split at h
        · next hle =>
            cases h
            exact ⟨behind, ⟨rfl, rfl⟩, hle, rfl, rfl⟩
        · cases h
      · intro h
        obtain ⟨behind', ⟨rfl, rfl⟩, hle, hpayload, rfl⟩ := h
        rw [if_pos hle, ← hpayload]

/-- So every record takes bytes, and the splitting ends. -/
theorem firstRecord_shorter {content more : Bytes} {r : FileRecord}
    (h : firstRecord content = some (r, more)) :
    more.length < content.length := by
  obtain ⟨behind, hword, -, -, rfl⟩ := firstRecord_eq_some.mp h
  have hlt := lengthWord_shorter hword
  rw [List.length_drop]
  omega

/-- The records of a content, and what is left behind them. -/
def parseRecords (content : Bytes) : List FileRecord × Bytes :=
  match h : firstRecord content with
  | none => ([], content)
  | some (r, more) =>
      have : more.length < content.length := firstRecord_shorter h
      (r :: (parseRecords more).1, (parseRecords more).2)
termination_by content.length

/-- Without a whole record, all is left over. -/
theorem parseRecords_none {content : Bytes} (h : firstRecord content = none) :
    parseRecords content = ([], content) := by
  unfold parseRecords
  split
  · rfl
  · next hsome => rw [h] at hsome; cases hsome

/-- With one, the rest is split behind it. -/
theorem parseRecords_some {content more : Bytes} {r : FileRecord}
    (h : firstRecord content = some (r, more)) :
    parseRecords content
      = (r :: (parseRecords more).1, (parseRecords more).2) := by
  conv => lhs; unfold parseRecords
  split
  · next hnone => rw [h] at hnone; cases hnone
  · next r' more' hsome =>
      rw [h] at hsome
      cases hsome
      rfl

/-- What is left behind this many records. -/
def behindRecords : Nat → Bytes → Option Bytes
  | 0, content => some content
  | k + 1, content => (firstRecord content).bind (behindRecords k ·.2)

-- =================================================== a varint that is cut off

/-- A byte of a buffer, there and in what the buffer is the front of. -/
theorem byte_front {buf : Bytes} {pos : Nat} (more : Bytes)
    (h : pos < buf.length) :
    ∃ b, buf[pos]? = some b ∧ (buf ++ more)[pos]? = some b := by
  have hb := List.getElem?_eq_getElem h
  exact ⟨_, hb, (List.getElem?_append_left h).trans hb⟩

/-- A varint that ends inside a buffer is read there as it is read in what
the buffer is the front of. -/
theorem decodeVarintLoop_front {buf more : Bytes} {rounds bitpos pos : Nat}
    {acc v : UInt64} {pos' : Nat} (hle : pos' ≤ buf.length) :
    decodeVarintLoop (buf ++ more) (buf ++ more).length rounds bitpos pos
        acc = .ok (v, pos') ↔
      decodeVarintLoop buf buf.length rounds bitpos pos acc
        = .ok (v, pos') := by
  by_cases hpos : pos < buf.length
  swap
  · refine iff_of_false ?_ ?_ <;>
    · intro h
      have := decodeVarintLoop_ok h
      omega
  induction rounds generalizing bitpos pos acc with
  | zero =>
      obtain ⟨b, hb, hb'⟩ := byte_front more hpos
      rw [decodeVarintLoop_last hb (.inr rfl),
        decodeVarintLoop_last hb' (.inr rfl)]
  | succ n ih =>
      obtain ⟨b, hb, hb'⟩ := byte_front more hpos
      by_cases hlow : b &&& 0x80 = 0
      · rw [decodeVarintLoop_last hb (.inl hlow),
          decodeVarintLoop_last hb' (.inl hlow)]
      by_cases hroom : buf.length < pos + 2
      · -- the next byte is not in the buffer
        rw [decodeVarintLoop_cut hb hlow hroom]
        refine iff_of_false ?_ (fun h => by cases h)
        intro h
        obtain ⟨c, hc, ⟨hend, -⟩ | ⟨n, -, -, -, hrest⟩⟩ :=
          decodeVarintLoop_cases h
        · cases hb'.symm.trans hc
          exact hend.elim hlow (Nat.succ_ne_zero n)
        · have := decodeVarintLoop_ok hrest
          omega
      · have hmore : pos + 2 ≤ (buf ++ more).length := by
          rw [List.length_append]
          omega
        rw [decodeVarintLoop_next hb hlow (Nat.not_lt.mp hroom),
          decodeVarintLoop_next hb' hlow hmore]
        exact ih (by omega)

/-- What lies behind the buffer is not read from a position in it. -/
theorem decodeVarintLoop_behind {buf more : Bytes} {stop : Nat}
    (hstop : stop ≤ buf.length) {rounds bitpos pos : Nat} {acc : UInt64}
    (hpos : pos < stop) :
    decodeVarintLoop (buf ++ more) stop rounds bitpos pos acc
      = decodeVarintLoop buf stop rounds bitpos pos acc := by
  induction rounds generalizing bitpos pos acc with
  | zero =>
      obtain ⟨b, hb, hb'⟩ := byte_front more (Nat.lt_of_lt_of_le hpos hstop)
      rw [decodeVarintLoop_last hb (.inr rfl),
        decodeVarintLoop_last hb' (.inr rfl)]
  | succ n ih =>
      obtain ⟨b, hb, hb'⟩ := byte_front more (Nat.lt_of_lt_of_le hpos hstop)
      by_cases hlow : b &&& 0x80 = 0
      · rw [decodeVarintLoop_last hb (.inl hlow),
          decodeVarintLoop_last hb' (.inl hlow)]
      by_cases hroom : stop < pos + 2
      · rw [decodeVarintLoop_cut hb hlow hroom,
          decodeVarintLoop_cut hb' hlow hroom]
      · have hroom := Nat.not_lt.mp hroom
        rw [decodeVarintLoop_next hb hlow hroom,
          decodeVarintLoop_next hb' hlow hroom]
        exact ih (by omega)

/-- A length word is what the decoder of varints takes. -/
theorem lengthWord_eq_some {content more : Bytes} {length : UInt64} :
    lengthWord content = some (length, more) ↔
      ∃ pos, decodeVarintLoop content content.length 10 0 0 0
          = .ok (length, pos) ∧ more = content.drop pos := by
  unfold lengthWord decodeVarint
  dsimp only
  constructor
  · intro h
    split at h
    · next value buf hread =>
        obtain ⟨⟨w, pos⟩, hloop, hok⟩ := Outcome.bind_eq_ok.mp hread
        cases hok
        cases h
        exact ⟨pos, hloop, rfl⟩
    · cases h
  · intro h
    obtain ⟨pos, hloop, rfl⟩ := h
    rw [hloop, Outcome.ok_bind]

/-- The length in front of a buffer is the length in front of what the
buffer is the front of. -/
theorem lengthWord_append {buf more behind : Bytes} {length : UInt64}
    (h : lengthWord buf = some (length, behind)) :
    lengthWord (buf ++ more) = some (length, behind ++ more) := by
  obtain ⟨pos, hloop, rfl⟩ := lengthWord_eq_some.mp h
  obtain ⟨-, hle, -⟩ := decodeVarintLoop_ok hloop
  exact lengthWord_eq_some.mpr ⟨pos, (decodeVarintLoop_front hle).mpr hloop,
    (List.drop_append_of_le_length hle).symm⟩

/-- And the other way round, if it ends in the buffer. -/
theorem lengthWord_front {buf more behind : Bytes} {length : UInt64}
    (h : lengthWord (buf ++ more) = some (length, behind))
    (hle : more.length ≤ behind.length) :
    ∃ front, lengthWord buf = some (length, front) ∧
      behind = front ++ more := by
  obtain ⟨pos, hloop, rfl⟩ := lengthWord_eq_some.mp h
  obtain ⟨-, hin, -⟩ := decodeVarintLoop_ok hloop
  rw [List.length_drop] at hle
  rw [List.length_append] at hle hin
  have hpos : pos ≤ buf.length := by omega
  exact ⟨buf.drop pos, lengthWord_eq_some.mpr
    ⟨pos, (decodeVarintLoop_front hpos).mp hloop, rfl⟩,
    List.drop_append_of_le_length hpos⟩

/-- The only error of `lwpb_decode_varint`. -/
theorem decodeVarintLoop_err {data : Bytes} {stop rounds bitpos pos : Nat}
    {acc : UInt64} {e : Err}
    (h : decodeVarintLoop data stop rounds bitpos pos acc = .err e) :
    e = .endOfBuf := by
  induction rounds generalizing bitpos pos acc with
  | zero =>
      cases hb : data[pos]? with
      | none => rw [decodeVarintLoop_outside hb] at h; cases h
      | some b => rw [decodeVarintLoop_last hb (.inr rfl)] at h; cases h
  | succ n ih =>
      cases hb : data[pos]? with
      | none => rw [decodeVarintLoop_outside hb] at h; cases h
      | some b =>
          by_cases hlow : b &&& 0x80 = 0
          · rw [decodeVarintLoop_last hb (.inl hlow)] at h
            cases h
          by_cases hcut : stop < pos + 2
          · rw [decodeVarintLoop_cut hb hlow hcut] at h
            cases h
            rfl
          · rw [decodeVarintLoop_next hb hlow (Nat.not_lt.mp hcut)] at h
            exact ih h

/-- `Decoder_decode_varint` of a buffer that is not empty. -/
theorem decoderDecodeVarint_eq {buf : Bytes} (hne : buf ≠ [])
    (hlen : buf.length < 2 ^ 31) :
    decoderDecodeVarint buf =
      match lengthWord buf with
      | some (length, behind) => .tuple (some length.toInt64.toInt)
          (buf.length - behind.length)
      | none => .tuple none 0 := by
  have hpos : 0 < buf.length := List.length_pos_iff.mpr hne
  unfold decoderDecodeVarint decodeMethod lengthWord decodeVarint
  rw [if_neg (by omega)]
  dsimp only
  rw [decodeVarintLoop_behind (Nat.le_refl _) hpos]
  cases hloop : decodeVarintLoop buf buf.length 10 0 0 0 with
  | ok read =>
      obtain ⟨length, pos⟩ := read
      obtain ⟨-, hle, -⟩ := decodeVarintLoop_ok hloop
      rw [Outcome.ok_bind]
      dsimp only
      rw [List.length_drop, Nat.sub_sub_self hle]
  | err e =>
      rw [decodeVarintLoop_err hloop]
      rfl
  | fault f =>
      exact absurd hloop (decodeVarintLoop_no_fault (Nat.le_refl _) hpos)

/-- From `2 ^ 31` bytes on the argument does not fit an `int`. -/
theorem decoderDecodeVarint_long {buf : Bytes} (h : 2 ^ 31 ≤ buf.length) :
    decoderDecodeVarint buf
      = .null ⟨.overflowError, "size does not fit in an int"⟩ :=
  if_pos h

-- ============================================== a record in front of a buffer

/-- A whole record in the buffer is the first record. -/
theorem firstRecord_append {buf more front : Bytes} {length : UInt64}
    (h : lengthWord buf = some (length, front))
    (hle : length.toNat ≤ front.length) :
    firstRecord (buf ++ more) = some (⟨length, front.take length.toNat⟩,
      front.drop length.toNat ++ more) := by
  refine firstRecord_eq_some.mpr ⟨front ++ more, lengthWord_append h, ?_,
    (List.take_append_of_le_length hle).symm,
    (List.drop_append_of_le_length hle).symm⟩
  rw [List.length_append]
  exact Nat.le_add_right_of_le hle

/-- The first record, if it ends in the buffer, is a whole record there. -/
theorem firstRecord_front {buf more behind : Bytes} {r : FileRecord}
    (h : firstRecord (buf ++ more) = some (r, behind))
    (hle : more.length ≤ behind.length) :
    ∃ front, lengthWord buf = some (r.length, front) ∧
      r.length.toNat ≤ front.length := by
  obtain ⟨all, hword, hlen, -, rfl⟩ := firstRecord_eq_some.mp h
  rw [List.length_drop] at hle
  obtain ⟨front, hfront, rfl⟩ := lengthWord_front hword (by omega)
  rw [List.length_append] at hle hlen
  exact ⟨front, hfront, by omega⟩

/-- What is behind the first record; nothing, if there is no whole one. -/
def behindFirst (rest : Bytes) : Bytes :=
  match firstRecord rest with
  | some (_, more) => more
  | none => []

-- ===================================================================== blocks

/-- How much of a file of `n` bytes is read when `e` bytes of it are
there. -/
def readTo (blocksize n e : Nat) : Nat :=
  min n ((e + (blocksize - 1)) / blocksize * blocksize)

section Blocks

variable {blocksize n e pos : Nat}

/-- Rounding up to whole blocks does not go below. -/
theorem le_roundUp (h : 0 < blocksize) :
    e ≤ (e + (blocksize - 1)) / blocksize * blocksize := by
  have hdiv := Nat.div_add_mod (e + (blocksize - 1)) blocksize
  have hmod := Nat.mod_lt (e + (blocksize - 1)) h
  rw [Nat.mul_comm] at hdiv
  omega

/-- Nor above a whole number of blocks that is not below. -/
theorem roundUp_le (h : 0 < blocksize) (hdvd : blocksize ∣ pos)
    (hle : e ≤ pos) :
    (e + (blocksize - 1)) / blocksize * blocksize ≤ pos := by
  obtain ⟨q, rfl⟩ := hdvd
  have hq : (e + (blocksize - 1)) / blocksize ≤ q :=
    (Nat.div_le_iff_le_mul_add_pred h).mpr (by omega)
  rw [Nat.mul_comm]
  exact Nat.mul_le_mul_left blocksize hq

/-- A block further than a whole number below is still not above. -/
theorem next_le_roundUp (h : 0 < blocksize) (hdvd : blocksize ∣ pos)
    (hlt : pos < e) :
    pos + blocksize ≤ (e + (blocksize - 1)) / blocksize * blocksize := by
  have hle := le_roundUp (e := e) h
  generalize (e + (blocksize - 1)) / blocksize = q at hle ⊢
  obtain ⟨c, rfl⟩ := hdvd
  have hc : c < q := by
    by_contra hge
    have := Nat.mul_le_mul_left blocksize (Nat.le_of_not_lt hge)
    rw [Nat.mul_comm q] at hle
    omega
  calc blocksize * c + blocksize = blocksize * (c + 1) := by ring
    _ ≤ blocksize * q := Nat.mul_le_mul_left blocksize hc
    _ = q * blocksize := Nat.mul_comm ..

/-- Reading to a later end reads no less. -/
theorem readTo_mono {e' : Nat} (h : e ≤ e') :
    readTo blocksize n e ≤ readTo blocksize n e' := by
  have hdiv : (e + (blocksize - 1)) / blocksize
      ≤ (e' + (blocksize - 1)) / blocksize :=
    Nat.div_le_div_right (by omega)
  have := Nat.mul_le_mul_right blocksize hdiv
  unfold readTo
  omega

/-- What is read is enough, and no more, if `e` bytes of it are there. -/
theorem readTo_eq (h : 0 < blocksize) (hpos : pos ≤ readTo blocksize n e)
    (hblock : pos = n ∨ blocksize ∣ pos) (hle : e ≤ pos) :
    readTo blocksize n e = pos := by
  refine Nat.le_antisymm ?_ hpos
  unfold readTo
  rcases hblock with rfl | hdvd
  · exact Nat.min_le_left ..
  · exact Nat.le_trans (Nat.min_le_right ..) (roundUp_le h hdvd hle)

/-- A block further, if `e` bytes are not there. -/
theorem next_le_readTo (h : 0 < blocksize)
    (hblock : pos = n ∨ blocksize ∣ pos) (hlt : pos < e ∨ e = n) :
    min n (pos + blocksize) ≤ readTo blocksize n e := by
  unfold readTo
  rcases hlt with hlt | rfl
  · rcases hblock with rfl | hdvd
    · have := le_roundUp (e := e) h
      omega
    · have := next_le_roundUp h hdvd hlt
      omega
  · have := le_roundUp (e := e) h
    omega

end Blocks

end Lwpb.Python
