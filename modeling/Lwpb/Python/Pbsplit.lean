/-
Splitting a stream: `python/pbsplit.py`.

`template % splitnum` is a parameter: the name of a file for every number,
by default that of `defaultTemplate`.
A file that is opened for writing is empty then, whatever was there under
its name. What `fout` writes is on the disk at once: between a `write` and
the `close` nobody looks.
-/
import Lwpb.Lib.Loop
import Lwpb.Python.Index

namespace Lwpb.Python

open Machine Loop

-- ================================================================== splitting

/-- Files by their names. -/
abbrev Disk := Text → Option Bytes

/-- `file(name, 'w')`, or what a write to the file leaves. -/
def Disk.put (disk : Disk) (name : Text) (content : Bytes) : Disk :=
  fun n => if n = name then some content else disk n

/-- `infile+".%05u" % splitnum`, for an `infile` without a percent sign. -/
def defaultTemplate (infile : Text) (splitnum : Nat) : Text :=
  infile ++ '.' :: List.leftpad 5 '0' (Nat.toDigits 10 splitnum)

/-- The variables of the loop, with the disk. `fout` is the name of the open
file. -/
structure SplitVars where
  disk : Disk
  fout : Option Text
  splitnum : Nat
  splitwritten : Nat
  written : Nat

/-- The variables in front of the loop. -/
def SplitVars.start (disk : Disk) : SplitVars := ⟨disk, none, 0, 0, 0⟩

variable (template : Nat → Text) (skip count splitsize : Int)

/-- `if fout == None`: the next file is opened. What comes with the
variables is the name of the open file, and the output. -/
def SplitVars.opened (v : SplitVars) : SplitVars × Text × List Text :=
  match v.fout with
  | some outfile => (v, outfile, [])
  | none =>
      let outfile := template v.splitnum
      ({ v with
          disk := v.disk.put outfile []
          fout := some outfile
          splitwritten := 0 }, outfile, [outfile])

/-- What is behind the write: the counters, and the end of a file. -/
def SplitVars.counted (v : SplitVars) : SplitVars :=
  let v := { v with
    written := v.written + 1
    splitwritten := v.splitwritten + 1 }
  if splitsize ≤ v.splitwritten then
    { v with fout := none, splitnum := v.splitnum + 1 }
  else v

/-- The body of the loop of `pbsplit`. -/
def splitBody (rd : StreamReader) (_record : Items) (v : SplitVars) :
    Flow SplitVars LoopFail × List Text :=
  if rd.currentNumber < skip then (.next v, [])
  else if 0 ≤ count ∧ count ≤ v.written then (.leave v, [])
  else
    let (v, outfile, out) := v.opened template
    match rd.currentRaw with
    | none => (.exit (.raised ⟨.typeError,
        "object of type 'NoneType' has no len()"⟩), out)
    | some raw =>
        match writeRaw ((v.disk outfile).getD []) raw with
        | none => (.exit .fault, out)
        | some content =>
            let v := { v with disk := v.disk.put outfile content }
            (.next (v.counted splitsize), out)

/-- A turn of the loop of `pbsplit`. Behind the loop a file that is still
open is closed. -/
def splitStep (new : PythonNew) (sch : Schema) (msgnum : UInt32)
    (uninit : Nat → UInt64) :
    StreamReader × SplitVars →
      Move (StreamReader × SplitVars) Text (End SplitVars LoopFail) :=
  Loop.step (streamTurn new sch msgnum uninit)
    (splitBody template skip count splitsize)

end Lwpb.Python
