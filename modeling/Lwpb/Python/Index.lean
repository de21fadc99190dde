/-
An index on a stream: `python/pbindex.py` and `python/pblookup.py`.

`pbindex` adds, for every record of a stream, the text of its key and the
text of the offset of its length word to an index. `pblookup` reads keys,
one in a line, and for each of them the records at the offsets that the
index holds for it, with one reader for all of them.

The store of the index is not part of the programs: `getall` is what it
gives for a key, after what was added. Neither is `str`, which makes the
text of a key.
-/
import Lwpb.Python.Stream
import Mathlib.Data.List.DropRight

namespace Lwpb.Python

open Machine

-- ================================================================= indexing

/-- A text. -/
abbrev Text := List Char

/-- `str` of an offset, or of None. -/
def offsetText : Option Nat → Text
  | none => ['N', 'o', 'n', 'e']
  | some n => Nat.toDigits 10 n

/-- The body of the loop of `pbindex`: what is added to the index. -/
def indexBody (str : PyObject → Bytes) (key : String) (rd : StreamReader)
    (record : Items) : Except PyErr (List (Bytes × Text)) :=
  match record.lookup key with
  | none => .error ⟨.other, key⟩
  | some value => .ok [(str value, offsetText rd.currentOffset)]

/-- A turn of the loop of `pbindex`. -/
def indexStep (new : PythonNew) (sch : Schema) (msgnum : UInt32)
    (str : PyObject → Bytes) (key : String) (uninit : Nat → UInt64) :
    StreamReader → Move StreamReader (Bytes × Text) IterRet :=
  forStep new sch msgnum (indexBody str key) uninit

/-- A turn of a loop that looks where the reader is: at the raw record, its
number and its offset. -/
def viewStep (new : PythonNew) (sch : Schema) (msgnum : UInt32)
    (uninit : Nat → UInt64) :
    StreamReader → Move StreamReader (Option Bytes × Int × Option Nat) IterRet :=
  forStep new sch msgnum (fun rd _ =>
    .ok [(rd.currentRaw, rd.currentNumber, rd.currentOffset)]) uninit

-- ================================================================== looking up

/-- `long` of a text, or an exception. -/
def long (text : Text) : Option Nat :=
  if text.all Char.isDigit && !text.isEmpty then
    some (Nat.ofDigitChars 10 text 0)
  else none

/-- `strip('\r\n')`. -/
def stripLine (line : Bytes) : Bytes :=
  let eol : UInt8 → Bool := fun b => b == 10 || b == 13
  (line.dropWhile eol).rdropWhile eol

/-- `fin.seek`, under a reader. -/
def StreamReader.seek (rd : StreamReader) (offset : Nat) : StreamReader :=
  { rd with stream := { rd.stream with pos := offset } }

/-- What lookups come to: the reader behind them, and the records that were
handed to the writer. -/
inductive LookupRet where
  | ok (rd : StreamReader) (records : List (Option Items))
  | raised (error : PyErr)
  | abort
  | fault

/-- More records in front. -/
def LookupRet.behind (records : List (Option Items)) : LookupRet → LookupRet
  | .ok rd records' => .ok rd (records ++ records')
  | .raised error => .raised error
  | .abort => .abort
  | .fault => .fault

variable (new : PythonNew) (sch : Schema) (msgnum : UInt32)

/-- The loop over what the index holds for a key. The uninitialised local of
the decoder is given by offset. -/
def lookupValues (uninit : Nat → UInt64) :
    StreamReader → List Text → LookupRet
  | rd, [] => .ok rd []
  | rd, indexvalue :: indexvalues =>
      match long indexvalue with
      | none => .raised ⟨.valueError, "invalid literal for long()"⟩
      | some offset =>
          match (rd.seek offset).read new sch msgnum (uninit offset) with
          | .ok rd => (lookupValues uninit rd indexvalues).behind
              [rd.currentRecord]
          | .raised error => .raised error
          | .abort => .abort
          | .fault => .fault

/-- The loop of `pblookup` over the lines it reads. -/
def lookupLines (getall : Bytes → List Text) :
    StreamReader → List (Bytes × (Nat → UInt64)) → LookupRet
  | rd, [] => .ok rd []
  | rd, (line, uninit) :: lines =>
      match lookupValues new sch msgnum uninit rd
          (getall (stripLine line)) with
      | .ok rd records => (lookupLines getall rd lines).behind records
      | .raised error => .raised error
      | .abort => .abort
      | .fault => .fault

end Lwpb.Python
