/-
Streams of records: `python/lwpb/stream.py`, with `encode_32bit` and
`decode_32bit` of `python/encoder.c` and `python/decoder.c`.

A record in a stream is its length, in four bytes, and its encoding. A
file is its bytes and a position in them; `read` of a file gives what is
left, if that is less than it is asked for.

A loop over a reader is run turn by turn (`forStep`): a turn of the loop of
`__iter__` is a move, and emits what the body of the loop makes of the
record that it yields. A loop that has variables or breaks is a loop over
`streamTurn`, a turn of `__iter__` by itself. What the decoder finds in its
uninitialised local is a parameter of every read, and of a loop for each
record.
-/
import Lwpb.Core.Encoder2
import Lwpb.Lib.Loop
import Lwpb.Python.Decoder
import Lwpb.Python.Encoder

namespace Lwpb.Python

open Machine

-- ============================================================= length words

/-- `Encoder_encode_32bit`, into a local buffer of 64 bytes; `I` keeps the
low 32 bits of a number. -/
def encoderEncode32bit (value : Nat) : Option Bytes := do
  let (heap, len) ←
    Encoder2.encode32bit ⟨fun _ => 0, 0, 64⟩ (some 0) (UInt32.ofNat value)
  some (Memory.read heap.mem 0 len.toNat)

/-- `Decoder_decode_32bit`: the number, or None, and the bytes it took. Any
other code is an exception. -/
def decoderDecode32bit (buf : Bytes) : Outcome (Option UInt32 × Nat) :=
  match decode32bit buf ⟨0, 0, buf.length⟩ with
  | .ok (value, lbuf) => .ok (some value, lbuf.pos)
  | .err .endOfBuf => .ok (none, 0)
  | .err e => .err e
  | .fault f => .fault f

-- ================================================================== writing

/-- `StreamWriter.write_raw`: the stream behind it. -/
def writeRaw (stream raw : Bytes) : Option Bytes := do
  let word ← encoderEncode32bit raw.length
  some (stream ++ word ++ raw)

/-- A call of `StreamWriter.write`: the record, and what its encoder finds
in its locals and gets from `calloc`. -/
structure WriteCall where
  record : Items
  garbage : Nat → Scratch
  calloc : UInt64 → Option Nat

/-- The record, encoded. -/
def WriteCall.encoded (py : PythonApi) (sch : Schema) (msgnum : UInt32)
    (c : WriteCall) : Encoded :=
  encoderEncode py sch c.garbage c.calloc c.record msgnum

/-- `StreamWriter.write`: the stream behind it; `none` is an exception. -/
def streamWrite (py : PythonApi) (sch : Schema) (msgnum : UInt32)
    (stream : Bytes) (c : WriteCall) : Option Bytes :=
  match c.encoded py sch msgnum with
  | .string raw none => writeRaw stream raw
  | _ => none

-- ================================================================== reading

/-- A file that is read. -/
structure PyFile where
  data : Bytes
  pos : Nat
  tells : Bool
  deriving Repr, DecidableEq

/-- What `read` returns. -/
def PyFile.read (f : PyFile) (n : Nat) : Bytes := (f.data.drop f.pos).take n

/-- The file behind a `read`. -/
def PyFile.behind (f : PyFile) (n : Nat) : PyFile :=
  { f with pos := f.pos + (f.read n).length }

/-- `StreamReader`; None is `none`. -/
structure StreamReader where
  stream : PyFile
  eof : Bool
  seekable : Bool
  currentRaw : Option Bytes
  currentRecord : Option Items
  currentLength : Option UInt32
  currentOffset : Option Nat
  currentNumber : Int

/-- `StreamReader.__init__`. -/
def StreamReader.init (stream : PyFile) : StreamReader :=
  ⟨stream, false, true, none, none, none, none, -1⟩

/-- `StreamReader.read_raw` up to the length word: what `tell` says is
noted, and what the last record left is forgotten. -/
def StreamReader.start (rd : StreamReader) : StreamReader :=
  { rd with
    currentOffset :=
      if rd.seekable && rd.stream.tells then some rd.stream.pos
      else rd.currentOffset
    seekable := rd.seekable && rd.stream.tells
    currentLength := none
    currentRecord := none
    currentRaw := none }

/-- `StreamReader.read_raw`. What it returns is `current_raw` then. -/
def StreamReader.readRaw (rd : StreamReader) : Outcome StreamReader :=
  let rd := rd.start
  let f := rd.stream.behind 4
  match decoderDecode32bit (rd.stream.read 4) with
  | .err e => .err e
  | .fault f => .fault f
  | .ok (none, _) => .ok { rd with stream := f, eof := true }
  | .ok (some length, _) => .ok
      { rd with
        currentLength := some length
        currentRaw := some (f.read length.toNat)
        stream := f.behind length.toNat
        currentNumber := rd.currentNumber + 1 }

/-- What a call of `StreamReader.read` comes to. The record it returns is
`current_record` then. -/
inductive ReadRet where
  | ok (rd : StreamReader)
  | raised (error : PyErr)
  | abort
  | fault

variable (new : PythonNew) (sch : Schema) (msgnum : UInt32)

/-- `StreamReader.read`. An exception that is pending beside a dict is
raised at the next look at it. -/
def StreamReader.read (uninit : UInt64) (rd : StreamReader) : ReadRet :=
  match rd.readRaw with
  | .err e => .raised ⟨.runtimeError,
      "decode_varint error: " ++ toString (errCode e)⟩
  | .fault _ => .fault
  | .ok rd =>
      match rd.currentRaw with
      | none => .ok rd
      | some raw =>
          match decoderDecode new sch uninit raw msgnum with
          | .dict items none => .ok { rd with currentRecord := some items }
          | .dict _ (some error) => .raised error
          | .none => .ok { rd with currentRecord := none }
          | .null error => .raised error
          | .abort => .abort
          | .fault => .fault

/-- How an iteration ends. -/
inductive IterRet where
  | stop (rd : StreamReader)
  | raised (error : PyErr)
  | abort
  | fault

/-- A turn of a loop over a reader: one of the loop of
`StreamReader.__iter__`, and the body of the loop over it with the record
that is yielded. -/
def forStep {ε : Type}
    (body : StreamReader → Items → Except PyErr (List ε))
    (uninit : Nat → UInt64) (rd : StreamReader) :
    Move StreamReader ε IterRet :=
  if rd.eof then .halt (.stop rd) []
  else
    match rd.read new sch msgnum (uninit (rd.currentNumber + 1).toNat) with
    | .ok rd =>
        match rd.currentRecord with
        | none => .next rd []
        | some record =>
            match body rd record with
            | .ok out => .next rd out
            | .error error => .halt (.raised error) []
    | .raised error => .halt (.raised error) []
    | .abort => .halt .abort []
    | .fault => .halt .fault []

/-- A turn of an iteration that does nothing but yield. -/
def iterStep (uninit : Nat → UInt64) (rd : StreamReader) :
    Move StreamReader Items IterRet :=
  forStep new sch msgnum (fun _ record => .ok [record]) uninit rd

/-- How a loop ends, if not behind its last turn. -/
inductive LoopFail where
  | raised (error : PyErr)
  | abort
  | fault
  deriving Repr, DecidableEq

/-- A turn of the loop of `StreamReader.__iter__`. -/
def streamTurn (uninit : Nat → UInt64) (rd : StreamReader) :
    Loop.Turn StreamReader Items LoopFail :=
  if rd.eof then .stop
  else
    match rd.read new sch msgnum (uninit (rd.currentNumber + 1).toNat) with
    | .ok rd =>
        match rd.currentRecord with
        | none => .again rd
        | some record => .item rd record
    | .raised error => .exit (.raised error)
    | .abort => .exit .abort
    | .fault => .exit .fault

end Lwpb.Python
