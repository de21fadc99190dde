/-
The copy routine for ports without a C library: `__lwpb_memmove` of
`utils/utils.c`, which `arch.h` puts behind `LWPB_MEMMOVE`.

# The machine

The function is two loops over an index of type `size_t`, so it is a
machine: its states are the points where control stands at the first
test or at the test of a loop, with the index and the memory. Whether it
returns is then a question about its runs, and not settled by how it is
written down.

An index, and the address of an element, is a number modulo `2 ^ w`. The
memory is the addresses below `size`; an access elsewhere has no defined
continuation, and a memory of `2 ^ w` bytes has no elsewhere.
-/
import Lwpb.Core.Decoder
import Lwpb.Lib.Memory

namespace Lwpb

open Machine Memory

/-- Where control stands in `__lwpb_memmove`, with `i` where it is set. -/
inductive MovePoint where
  /-- Before the tests of the two pointers. -/
  | entry
  /-- At the test of the loop for `d < s`. -/
  | up (i : Nat)
  /-- At the test of the loop of the `else` branch. -/
  | down (i : Nat)
  deriving Repr, DecidableEq

/-- A state of `__lwpb_memmove`. -/
structure MoveState where
  point : MovePoint
  mem : Mem

/-- An addition of `w` bits: of pointer and index, or of an index and 1. -/
def sizeAdd (w a b : Nat) : Nat := (a + b) % 2 ^ w

/-- `i - 1` of `w` bits: below 0 lies `2 ^ w - 1`. -/
def sizePred (w i : Nat) : Nat := (i + (2 ^ w - 1)) % 2 ^ w

/-- `d[i] = s[i]` in a memory of `size` bytes. -/
def moveByte (w size d s i : Nat) (mem : Mem) : Outcome Mem :=
  let di := sizeAdd w d i
  let si := sizeAdd w s i
  if si < size then
    if di < size then .ok (put mem di (mem si))
    else .fault .pointer
  else .fault (.read si)

/-- `__lwpb_memmove`: its result is `dest`, with the memory it leaves. -/
def memmoveStep (w size dest src n : Nat) :
    MoveState → Move MoveState Empty (Outcome (Nat × Mem))
  | ⟨.entry, mem⟩ =>
      if dest = src then .halt (.ok (dest, mem)) []
      else if dest < src then .next ⟨.up 0, mem⟩ []
      else .next ⟨.down (sizePred w n), mem⟩ []
  | ⟨.up i, mem⟩ =>
      if i < n then
        match moveByte w size dest src i mem with
        | .ok mem => .next ⟨.up (sizeAdd w i 1), mem⟩ []
        | .err e => .halt (.err e) []
        | .fault f => .halt (.fault f) []
      else .halt (.ok (dest, mem)) []
  | ⟨.down i, mem⟩ =>
      -- `i` is unsigned: this holds of every index
      if i ≥ 0 then
        match moveByte w size dest src i mem with
        | .ok mem => .next ⟨.down (sizePred w i), mem⟩ []
        | .err e => .halt (.err e) []
        | .fault f => .halt (.fault f) []
      else .halt (.ok (dest, mem)) []

end Lwpb
