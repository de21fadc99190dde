/-
The record loop of `python/protodef.py`.

The loop reads a file in blocks and takes records from the front of what it
has read: a length as a varint, and that many bytes. Its two loops are one
machine. A move reads a block and goes into the inner loop, or it is a round
of the inner loop, with what is behind the inner loop if it leaves it. What
`print` gets is the output.

The length that the loop computes with has a sign (`decoderDecodeVarint`).
Python numbers have no bounds, so neither has `pos`.
-/
import Lwpb.Python.Codecs

namespace Lwpb.Python

open Machine

-- =================================================================== slices

/-- An index of a slice: a negative one counts from the end, and none is
beyond an end. -/
def sliceIndex (len : Nat) (i : Int) : Nat :=
  if i < 0 then (i + len).toNat else min i.toNat len

/-- `buf[i:]`. -/
def sliceFrom (buf : Bytes) (i : Int) : Bytes :=
  buf.drop (sliceIndex buf.length i)

/-- `buf[i:j]`. -/
def slice (buf : Bytes) (i j : Int) : Bytes :=
  (buf.take (sliceIndex buf.length j)).drop (sliceIndex buf.length i)

example : slice [1, 2, 3, 4] 1 (-1) = [2, 3] := by decide

-- ================================================================= the loop

/-- The variables of the loop, and how often `d.decode` was called. -/
structure ProtodefVars where
  f : PyFile
  buf : Bytes
  eof : Bool
  calls : Nat

/-- The tests of the two loops. -/
inductive ProtodefState where
  | outer (v : ProtodefVars)
  | inner (v : ProtodefVars) (pos : Int)

/-- A record that was printed: its length, its bytes and what they were
decoded to. -/
structure Printed where
  recordlen : Int
  raw : Bytes
  record : Option Items

/-- How the loop ends. -/
inductive ProtodefRet where
  | stop
  /-- `EOFError("partial record at EOF %d %s" % (pos, buf))`. -/
  | eofError (pos : Int) (buf : Bytes)
  | raised (error : PyErr)
  | abort
  | fault

/-- Before the first round. -/
def protodefStart (content : Bytes) : ProtodefState :=
  .outer ⟨⟨content, 0, true⟩, [], false, 0⟩

/-- A round of the outer loop up to the inner one. -/
def outerRound (blocksize : Nat) (v : ProtodefVars) :
    Move ProtodefState Printed ProtodefRet :=
  if v.eof ∧ v.buf = [] then .halt .stop []
  else if v.eof then .next (.inner v 0) []
  else
    let block := v.f.read blocksize
    .next (.inner
      { v with
        f := v.f.behind blocksize
        buf := v.buf ++ block
        eof := block.length < blocksize } 0) []

/-- Behind the inner loop. -/
def innerLeft (v : ProtodefVars) (pos : Int) :
    Move ProtodefState Printed ProtodefRet :=
  if 0 < pos then .next (.outer { v with buf := sliceFrom v.buf pos }) []
  else if v.eof ∧ v.buf ≠ [] then .halt (.eofError pos v.buf) []
  else .next (.outer v) []

section

variable (new : PythonNew) (sch : Schema) (msgnum : UInt32)
  (uninit : Nat → UInt64)

/-- The rest of a round of the inner loop, from `d.decode` on. An exception
that is pending beside a dict is raised at the next look at it. -/
def printRecord (v : ProtodefVars) (pos recordlen : Int) :
    Move ProtodefState Printed ProtodefRet :=
  let raw := slice v.buf pos (pos + recordlen)
  let next := .inner { v with calls := v.calls + 1 } (pos + recordlen)
  match decoderDecode new sch (uninit v.calls) raw msgnum with
  | .dict items none => .next next [⟨recordlen, raw, some items⟩]
  | .dict _ (some error) => .halt (.raised error) []
  | .none => .next next [⟨recordlen, raw, none⟩]
  | .null error => .halt (.raised error) []
  | .abort => .halt .abort []
  | .fault => .halt .fault []

/-- A round of the inner loop. -/
def innerRound (v : ProtodefVars) (pos : Int) :
    Move ProtodefState Printed ProtodefRet :=
  if v.buf.length ≤ pos then innerLeft v pos
  else
    match decoderDecodeVarint (sliceFrom v.buf pos) with
    | .null error => .halt (.raised error) []
    | .fault => .halt .fault []
    | .tuple recordlen bytes =>
        if bytes = 0 then innerLeft v pos
        else
          match recordlen with
          | none => .halt (.raised ⟨.typeError,
              "unsupported operand type(s) for +: 'long' and 'NoneType'"⟩) []
          | some recordlen =>
              if v.buf.length < pos + bytes + recordlen then innerLeft v pos
              else printRecord new sch msgnum uninit v (pos + bytes) recordlen

/-- A move of the loop. -/
def protodefStep (blocksize : Nat) :
    ProtodefState → Move ProtodefState Printed ProtodefRet
  | .outer v => outerRound blocksize v
  | .inner v pos => innerRound new sch msgnum uninit v pos

end

end Lwpb.Python
