/-
PyValue values and flat dicts: `python/flat.py`.

`flatten` writes the way to every leaf of a value into its key, with dots;
`unflatten` follows the keys back. In which order the items of a dict are
visited is a parameter. A string of digits in a key is the index of a list,
or the integer as a key of a dict that is there already. A leaf is what is
neither a list nor a dict. `none` is an exception.
-/
import Lwpb.Lib.Assoc
import Lwpb.Python.Primitives

namespace Lwpb.Python

-- ================================================================== values

/-- What is neither a list nor a dict. -/
inductive Leaf where
  | none
  | bool (b : Bool)
  | int (n : Int)
  | float (bits : UInt64)
  | str (s : Bytes)
  deriving Repr, DecidableEq

/-- A key of a dict. -/
inductive Key where
  | str (s : Bytes)
  | int (n : Nat)
  deriving Repr, DecidableEq

/-- A value, nested to any depth. -/
inductive PyValue where
  | leaf (v : Leaf)
  | list (elems : List PyValue)
  | dict (items : List (Key × PyValue))

/-- `"%d"`. -/
def digits (n : Nat) : Bytes :=
  (Nat.toDigits 10 n).map fun c => UInt8.ofNat c.toNat

/-- `"%s"` of a key. -/
def Key.text : Key → Bytes
  | .str s => s
  | .int n => digits n

/-- `isdigit`. -/
def isdigit (part : Bytes) : Bool :=
  !part.isEmpty && part.all fun c => 48 ≤ c && c ≤ 57

/-- `int` of digits. -/
def int (part : Bytes) : Nat :=
  part.foldl (fun n c => 10 * n + (c.toNat - 48)) 0

/-- The order in which the items of a dict are visited. -/
structure DictOrder where
  items : {α : Type} → List (Key × α) → List (Key × α)
  perm : ∀ {α : Type} (d : List (Key × α)), (items d).Perm d

variable (order : DictOrder)

-- ================================================================ flatten

/-- What `flatten` returns. -/
inductive Flat where
  | leaf (v : Leaf)
  | dict (items : List (Key × Leaf))

/-- The items of a flattened value under a key. -/
def spliceItem : Key × Flat → List (Key × Leaf)
  | (k1, .leaf v1) => [(k1, v1)]
  | (k1, .dict v1) =>
      (order.items v1).map fun (k2, v2) =>
        (.str (k1.text ++ 46 :: k2.text), v2)

/-- The second loop of `flatten`. -/
def splice (flat : List (Key × Flat)) : List (Key × Leaf) :=
  Assoc.ofList ((order.items flat).flatMap (spliceItem order))

mutual

/-- `flatten`. -/
def flatten : PyValue → Flat
  | .leaf v => .leaf v
  | .list elems => .dict (splice order (Assoc.ofList (flattenElems 0 elems)))
  | .dict items => .dict
      (splice order (Assoc.ofList (order.items (flattenItems items))))

def flattenElems : Nat → List PyValue → List (Key × Flat)
  | _, [] => []
  | i, elem :: elems =>
      (.str (digits i), flatten elem) :: flattenElems (i + 1) elems

def flattenItems : List (Key × PyValue) → List (Key × Flat)
  | [] => []
  | (k, v) :: items => (k, flatten v) :: flattenItems items

end

-- ============================================================== unflatten

/-- `default`: the value, at the end of a path, or what the next part of it
goes into. -/
def pathDefault (v : Leaf) : List Bytes → PyValue
  | [] => .leaf v
  | part :: _ => if isdigit part then .list [] else .dict []

/-- `p.extend` up to an index. -/
def extend (n : Nat) (elems : List PyValue) : List PyValue :=
  elems ++ List.replicate (n + 1 - elems.length) (.leaf .none)

/-- The loop of `unflatten` over a path, from `p` on. -/
def putPath (v : Leaf) : List Bytes → PyValue → Option PyValue
  | [], p => some p
  | part :: path, p =>
      if isdigit part then
        match p with
        | .list elems => do
            let p ← putPath v path (pathDefault v path)
            some (.list ((extend (int part) elems).set (int part) p))
        | .dict items =>
            if items.length ≤ int part then none
            else do
              let p ← putPath v path (pathDefault v path)
              some (.dict (Assoc.set (.int (int part)) p items))
        | .leaf _ => none
      else
        match p with
        | .dict items => do
            let p ← putPath v path
              ((items.lookup (.str part)).getD (pathDefault v path))
            some (.dict (Assoc.set (.str part) p items))
        | _ => none

/-- The body of the loop over the items. -/
def putItem (dst : PyValue) : Key × Leaf → Option PyValue
  | (.str k, v) => putPath v (k.splitOn 46) dst
  | (.int _, _) => none

/-- `unflatten`. -/
def unflatten (src : List (Key × Leaf)) : Option PyValue :=
  (order.items src).foldlM putItem (.dict [])

end Lwpb.Python
