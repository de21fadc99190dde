/-
Delimited text: `python/percent/codec.py` and `python/percent/stream.py`.

A record is a line: the values of some fields, with delimiters between them.
A character that is not safe is written as a percent sign and two hex digits,
and the percent sign is doubled. `str` of a float is a parameter; `none` is an
exception.
-/
import Lwpb.Lib.Delimited
import Lwpb.Python.Flat
import Lwpb.Python.Stream
import Mathlib.Data.List.DropRight

namespace Lwpb.Python

open Machine

-- ================================================================== tables

/-- `'%x' % n` or `'%X' % n`, of less than 16. -/
def hexDigit (upper : Bool) (n : Nat) : UInt8 :=
  if n < 10 then UInt8.ofNat (48 + n)
  else UInt8.ofNat ((if upper then 55 else 87) + n)

/-- `'%02x' % c` or `'%02X' % c`. -/
def hex2 (upper : Bool) (c : UInt8) : Bytes :=
  [hexDigit upper (c.toNat / 16), hexDigit upper (c.toNat % 16)]

/-- `string.whitespace`. -/
def whitespace : Bytes := [32, 9, 10, 13, 11, 12]

/-- `string.printable`: what is not white space stands from `!` to `~`. -/
def printable : Bytes :=
  (List.range 94).map (fun i => UInt8.ofNat (33 + i)) ++ whitespace

/-- `PercentCodec`. -/
structure PercentCodec where
  fields : List Bytes
  delim : Bytes
  chrtohex : UInt8 → Bytes

/-- `PercentCodec.__init__`. -/
def PercentCodec.init (fields : List Bytes) (delim safe unsafeChars : Bytes) :
    PercentCodec where
  fields := fields
  delim := delim
  chrtohex c :=
    if c = 37 then [37, 37]
    else if c ∈ safe ∧ c ∉ unsafeChars ++ delim then [c]
    else 37 :: hex2 false c

/-- The character of two hex digits, if they are of one case. -/
def hexChar (upper : Bool) (key : Bytes) : Option UInt8 :=
  ((List.range 256).map UInt8.ofNat).find? fun c => hex2 upper c = key

/-- `hextochr`: digits of upper case come over those of lower case. -/
def hextochr (key : Bytes) : Option UInt8 :=
  if key = [37] then some 37 else (hexChar true key).or (hexChar false key)

-- ================================================================== records

/-- `[a-fA-F0-9]`. -/
def isHexDigit (c : UInt8) : Bool :=
  (97 ≤ c && c ≤ 102) || (65 ≤ c && c ≤ 70) || (48 ≤ c && c ≤ 57)

/-- `escape`. -/
def PercentCodec.escape (codec : PercentCodec) (s : Bytes) : Bytes :=
  s.flatMap codec.chrtohex

/-- `unescape`: what `%(%|[a-fA-F0-9]{2})` matches is looked up. -/
def unescape : Bytes → Option Bytes
  | [] => some []
  | c :: cs =>
      if c ≠ 37 then (unescape cs).map (c :: ·)
      else
        match cs with
        | 37 :: cs => do
            let b ← hextochr [37]
            (unescape cs).map (b :: ·)
        | a :: b :: cs =>
            if isHexDigit a && isHexDigit b then do
              let c ← hextochr [a, b]
              (unescape cs).map (c :: ·)
            else (unescape (a :: b :: cs)).map (37 :: ·)
        | cs => (unescape cs).map (37 :: ·)

variable (order : DictOrder) (floatText : UInt64 → Bytes)

/-- `str`. -/
def Leaf.text : Leaf → Bytes
  | .none => [78, 111, 110, 101]
  | .bool true => [84, 114, 117, 101]
  | .bool false => [70, 97, 108, 115, 101]
  | .int (.ofNat n) => digits n
  | .int (.negSucc n) => 45 :: digits (n + 1)
  | .float bits => floatText bits
  | .str s => s

/-- `encode`, of a dict. -/
def PercentCodec.encode (codec : PercentCodec)
    (record : List (Key × PyValue)) : Bytes :=
  let flat :=
    match flatten order (.dict record) with
    | .leaf _ => []
    | .dict flat => flat
  let values := codec.fields.map fun k =>
    codec.escape (((flat.lookup (.str k)).map (Leaf.text floatText)).getD [])
  codec.delim.intercalate values

/-- The loop of `decode`. -/
def assign : List Bytes → List Bytes → List (Key × Leaf) →
    Option (List (Key × Leaf))
  | _, [], flat => some flat
  | [], _ :: _, _ => none
  | k :: fields, value :: values, flat => do
      let s ← unescape value
      assign fields values (Assoc.set (.str k) (.str s) flat)

/-- `rstrip('\r\n')`. -/
def rstripLine (data : Bytes) : Bytes :=
  data.rdropWhile fun b => b == 13 || b == 10

/-- `decode`. -/
def PercentCodec.decode (codec : PercentCodec) (data : Bytes) :
    Option PyValue :=
  if codec.delim = [] then none
  else do
    let values := Delimited.split codec.delim (codec.fields.length - 1)
      (rstripLine data)
    let flat ← assign codec.fields values []
    unflatten order flat

-- ================================================================== streams

/-- Up to the first line end, and with it. -/
def firstLine : Bytes → Bytes
  | [] => []
  | c :: cs => if c = 10 then [c] else c :: firstLine cs

/-- What `readline` returns. -/
def PyFile.readline (f : PyFile) : Bytes := firstLine (f.data.drop f.pos)

/-- The file behind a `readline`. -/
def PyFile.behindLine (f : PyFile) : PyFile :=
  { f with pos := f.pos + f.readline.length }

/-- `PercentCodecReader`. -/
structure PercentCodecReader where
  f : PyFile
  currentNumber : Nat
  currentOffset : Nat
  currentLength : Nat
  currentRaw : Option Bytes
  currentRecord : Option PyValue

/-- `PercentCodecReader.__init__`. -/
def PercentCodecReader.init (f : PyFile) : PercentCodecReader :=
  ⟨f, 0, 0, 0, none, none⟩

/-- `PercentCodecReader.read`: what it returns, and the reader behind it. -/
def PercentCodecReader.read (codec : PercentCodec) (rd : PercentCodecReader) :
    Option (Option PyValue × PercentCodecReader) :=
  let offset := rd.currentOffset + rd.currentLength
  let line := rd.f.readline
  if line = [] then
    some (none, { rd with f := rd.f.behindLine, currentOffset := offset })
  else do
    let record ← codec.decode order line
    some (some record,
      { f := rd.f.behindLine
        currentNumber := rd.currentNumber + 1
        currentOffset := offset
        currentLength := line.length
        currentRaw := some line
        currentRecord := some record })

/-- How an iteration over lines ends. -/
inductive LinesRet where
  | stop (rd : PercentCodecReader)
  | raised

/-- A turn of the loop of `PercentCodecReader.__iter__`. -/
def lineStep (codec : PercentCodec) (rd : PercentCodecReader) :
    Move PercentCodecReader PyValue LinesRet :=
  match rd.read order codec with
  | none => .halt .raised []
  | some (none, rd) => .halt (.stop rd) []
  | some (some record, rd) => .next rd [record]

/-- A turn of that loop for a loop over the reader. What an exception of the
codec is, is not modelled. -/
def lineTurn (codec : PercentCodec) (rd : PercentCodecReader) :
    Loop.Turn PercentCodecReader PyValue LoopFail :=
  match rd.read order codec with
  | none => .exit (.raised ⟨.other, "decode"⟩)
  | some (none, _) => .stop
  | some (some record, rd) => .item rd record

/-- `PercentCodecWriter.write`: the file behind it, and what it returns. -/
def writeLine (codec : PercentCodec) (f : Bytes)
    (record : List (Key × PyValue)) : Bytes × Nat :=
  let line := codec.encode order floatText record
  (f ++ line ++ [10], line.length)

end Lwpb.Python
