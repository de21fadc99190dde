/-
Converting records: the record loop of `python/pbio.py`.

The loop is written against any reader: it iterates over it, and looks at
what its attributes are for the record at hand (`ReaderView`). `StreamReader`
and `PercentCodecReader` are such readers.

What is not the program's own is a field of `Pbio`: the code of the options
`-B`, `-e` and `-E`, which may do anything to the world it shares with
`emit`; the operations of a dict, of whatever kind the reader yields; and
the writer. The outputs of the loop are what becomes of the records, one
for each that the reader yields.
-/
import Lwpb.Python.Percent

namespace Lwpb.Python

open Machine Loop

-- ==================================================================== readers

/-- The attributes of a reader that the loop looks at; `none` is None. -/
structure ReaderView where
  currentNumber : Int
  currentRaw : Option Bytes
  currentOffset : Option Nat
  currentLength : Option Nat

def StreamReader.view (rd : StreamReader) : ReaderView where
  currentNumber := rd.currentNumber
  currentRaw := rd.currentRaw
  currentOffset := rd.currentOffset
  currentLength := rd.currentLength.map UInt32.toNat

def PercentCodecReader.view (rd : PercentCodecReader) : ReaderView where
  currentNumber := rd.currentNumber
  currentRaw := rd.currentRaw
  currentOffset := some rd.currentOffset
  currentLength := some rd.currentLength

-- ==================================================================== options

/-- The options of a run, with dicts, codes and the writer: `R` is a dict,
`V` a value in it, and `W` what the codes and the writer work on. -/
structure Pbio (R V W : Type) where
  /-- `-A`. -/
  aggregate : Option String
  /-- `-F` or `-I`. -/
  infields : List String
  /-- `-W pb`. -/
  writesPb : Bool
  /-- `-B`. -/
  begincode : Option (W → Except PyErr W)
  /-- `-e`, with the record as its local variables. -/
  mapcode : Option (W → R → Except PyErr (W × R))
  /-- `-E`. -/
  endcode : Option (W → Except PyErr W)
  /-- `record.get`; a None in the dict is like none. -/
  get : R → String → Option V
  /-- `k in record`. -/
  contains : R → String → Bool
  /-- `record[k] = v`, of a string. -/
  setStr : R → String → Bytes → R
  /-- The value is true. -/
  truth : V → Bool
  /-- `!=`. -/
  differs : Option V → Option V → Bool
  /-- `writer.write`. -/
  write : W → R → Except PyErr W
  /-- `writer.write_raw`. -/
  writeRaw : W → Option V → Except PyErr W

/-- The variables of the loop, with the world. -/
structure PbioVars (V W : Type) where
  world : W
  lastkey : Option V
  written : Nat

/-- What becomes of a record that is read. -/
inductive Fate where
  /-- It is in front of the first. -/
  | dropped
  /-- It is there when `count` records have been written. -/
  | beyond
  /-- It has a true `_SKIP`. -/
  | skipped
  | written
  | failed
  deriving Repr, DecidableEq

variable {R V W : Type} (p : Pbio R V W)

-- ================================================================= one record

/-- `if code != None: exec code in codeglobals`. -/
def execCode (code : Option (W → Except PyErr W)) (world : W) :
    Except PyErr W :=
  match code with
  | none => .ok world
  | some code => code world

/-- The codes at a key boundary. -/
def Pbio.rekey (key : Option V) (v : PbioVars V W) : Except PyErr W :=
  if v.lastkey.isSome && p.differs key v.lastkey then do
    let world ← execCode p.endcode v.world
    execCode p.begincode world
  else .ok v.world

/-- In aggregate mode: the codes, and the key. -/
def Pbio.boundary (record : R) (v : PbioVars V W) :
    Except PyErr (PbioVars V W) :=
  match p.aggregate with
  | none => .ok v
  | some aggregate => do
      let key := p.get record aggregate
      let world ← p.rekey key v
      .ok { v with world := world, lastkey := key }

/-- `exec mapcode in codeglobals, record`. -/
def Pbio.map (record : R) (world : W) : Except PyErr (W × R) :=
  match p.mapcode with
  | none => .ok (world, record)
  | some mapcode => mapcode world record

/-- The string of an attribute that a field asks for. -/
def ReaderView.attribute (view : ReaderView) (k : String) : Option Bytes :=
  if k = "_RECORD" then view.currentRaw
  else if k = "_NUMBER" then
    some (Leaf.text (fun _ => []) (.int view.currentNumber))
  else if k = "_OFFSET" then view.currentOffset.map digits
  else if k = "_LENGTH" then view.currentLength.map digits
  else none

/-- The loop over `infields`. -/
def Pbio.fill (view : ReaderView) (record : R) : R :=
  p.infields.foldl (fun record k =>
    if p.contains record k then record
    else
      match view.attribute k with
      | none => record
      | some v => p.setStr record k v) record

/-- `emit`. -/
def Pbio.emit (world : W) (record : R) : Except PyErr W :=
  if p.writesPb && p.contains record "_RECORD" then
    p.writeRaw world (p.get record "_RECORD")
  else p.write world record

/-- What is done with a record that is neither dropped nor beyond. -/
def Pbio.handle (view : ReaderView) (record : R) (v : PbioVars V W) :
    Except PyErr (Fate × PbioVars V W) := do
  let v ← p.boundary record v
  let (world, record) ← p.map record v.world
  let v := { v with world := world }
  if (p.get record "_SKIP").any p.truth then .ok (.skipped, v)
  else
    let world ← p.emit v.world (p.fill view record)
    .ok (.written, { v with world := world, written := v.written + 1 })

-- =================================================================== the loop

variable {ρ : Type} (view : ρ → ReaderView) (skip count : Int)

/-- The body of the loop. -/
def pbioBody (rd : ρ) (record : R) (v : PbioVars V W) :
    Flow (PbioVars V W) LoopFail × List Fate :=
  if (view rd).currentNumber < skip then (.next v, [.dropped])
  else if 0 ≤ count ∧ count ≤ v.written then (.leave v, [.beyond])
  else
    match p.handle (view rd) record v with
    | .ok (fate, v) => (.next v, [fate])
    | .error error => (.exit (.raised error), [.failed])

/-- A turn of the loop over a reader. -/
def pbioStep (turn : ρ → Turn ρ R LoopFail) :
    ρ × PbioVars V W →
      Move (ρ × PbioVars V W) Fate (End (PbioVars V W) LoopFail) :=
  Loop.step turn (pbioBody p view skip count)

/-- The body of a loop that looks at the number of every record. -/
def numberBody (rd : ρ) (_record : R) (_vars : Unit) :
    Flow Unit LoopFail × List Int :=
  (.next (), [(view rd).currentNumber])

/-- A turn of that loop. -/
def numberStep (turn : ρ → Turn ρ R LoopFail) :
    ρ × Unit → Move (ρ × Unit) Int (End Unit LoopFail) :=
  Loop.step turn (numberBody view)

end Lwpb.Python
