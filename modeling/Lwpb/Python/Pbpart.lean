/-
Partitioning a stream: `python/pbpart.py`.

The code of the option `-e`, `str` and `template % partition` are fields of
`Pbpart`, with the key. Files are written as those of `pbsplit` are; the
outputs of the loop are the names of the files, when they are opened. The
input is none of them.
-/
import Lwpb.Python.Pbsplit

namespace Lwpb.Python

open Machine Loop

/-- The options of a run: `W` is what the code works on. -/
structure Pbpart (W : Type) where
  /-- `-k`. -/
  key : String
  /-- `template % partition`. -/
  template : Text → Text
  /-- `-e`, with the record as its local variables. -/
  mapcode : Option (W → Items → Except PyErr (W × Items))
  /-- `str`. -/
  str : PyObject → Text

/-- `infile+".%s"`, for an `infile` without a percent sign. -/
def defaultPartition (infile partition : Text) : Text :=
  infile ++ '.' :: partition

/-- The variables of the loop, with the disk. `fouts` has the name of the
open file of every partition; `writers` has a writer to it. -/
structure PartVars (W : Type) where
  world : W
  disk : Disk
  fouts : List (Text × Text)

variable {W : Type} (p : Pbpart W)

/-- The partition of a record, behind the code. -/
def Pbpart.partition (world : W) (record : Items) :
    Except PyErr (W × Text) := do
  let (world, record) ←
    match p.mapcode with
    | none => .ok (world, record)
    | some mapcode => mapcode world record
  match record.lookup p.key with
  | none => .error ⟨.other, p.key⟩
  | some value => .ok (world, p.str value)

/-- `if not fout`: the file of a partition is opened. What comes with the
variables is its name, and the output. -/
def PartVars.opened (v : PartVars W) (partition : Text) :
    PartVars W × Text × List Text :=
  match v.fouts.find? fun fout => fout.1 = partition with
  | some (_, outfile) => (v, outfile, [])
  | none =>
      let outfile := p.template partition
      ({ v with
          disk := v.disk.put outfile []
          fouts := v.fouts ++ [(partition, outfile)] }, outfile, [outfile])

/-- The body of the loop of `pbpart`. -/
def partBody (rd : StreamReader) (record : Items) (v : PartVars W) :
    Flow (PartVars W) LoopFail × List Text :=
  match p.partition v.world record with
  | .error error => (.exit (.raised error), [])
  | .ok (world, partition) =>
      let (v, outfile, out) := PartVars.opened p { v with world := world }
        partition
      match rd.currentRaw with
      | none => (.exit (.raised ⟨.typeError,
          "object of type 'NoneType' has no len()"⟩), out)
      | some raw =>
          match writeRaw ((v.disk outfile).getD []) raw with
          | none => (.exit .fault, out)
          | some content =>
              (.next { v with disk := v.disk.put outfile content }, out)

/-- A turn of the loop of `pbpart`. Behind the loop all files are closed. -/
def partStep (new : PythonNew) (sch : Schema) (msgnum : UInt32)
    (uninit : Nat → UInt64) :
    StreamReader × PartVars W →
      Move (StreamReader × PartVars W) Text (End (PartVars W) LoopFail) :=
  Loop.step (streamTurn new sch msgnum uninit) (partBody p)

end Lwpb.Python
