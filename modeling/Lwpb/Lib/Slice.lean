/-
Slices of a list, and the little-endian numbers in them.

`At data p xs` says that `xs` stands in `data` from index `p` on: the
form in which "these bytes lie at this address" is stated everywhere.
What makes it usable is that it splits along `++` (`at_append`), so a
statement about a serialised tree becomes one statement a piece, each at
the offset where the piece before it ends.

The second half is the fixed-width numbers: `le` reads a byte string as
a number, least significant byte first, and `leBytes` writes one.
-/
import Mathlib.Data.List.Basic
import Mathlib.Tactic.Ring

namespace Slice

variable {α : Type} {data xs ys : List α} {p : Nat}

/-- `xs` stands in `data` from index `p` on. -/
def At (data : List α) (p : Nat) (xs : List α) : Prop :=
  xs <+: data.drop p

/-- Nothing stands everywhere. -/
theorem at_nil : At data p [] := List.nil_prefix

/-- The whole stands at the start. -/
theorem at_zero (data : List α) : At data 0 data :=
  List.prefix_refl data

/-- What stands at a place is what is taken there. -/
theorem At.take (h : At data p xs) :
    (data.drop p).take xs.length = xs :=
  (List.prefix_iff_eq_take.mp h).symm

/-- It ends inside. -/
theorem At.length_le (h : At data p xs) (hp : p ≤ data.length) :
    p + xs.length ≤ data.length := by
  have hle := List.IsPrefix.length_le h
  rw [List.length_drop] at hle
  omega

/-- Two parts stand one behind the other. -/
theorem at_append :
    At data p (xs ++ ys) ↔ At data p xs ∧ At data (p + xs.length) ys := by
  unfold At
  constructor
  · intro h
    obtain ⟨zs, hzs⟩ := h
    refine ⟨⟨ys ++ zs, by rw [← hzs, List.append_assoc]⟩, zs, ?_⟩
    rw [← List.drop_drop, ← hzs, List.append_assoc, List.drop_left]
  · intro h
    obtain ⟨⟨us, hus⟩, vs, hvs⟩ := h
    refine ⟨vs, ?_⟩
    rw [← List.drop_drop, ← hus, List.drop_left] at hvs
    rw [← hus, ← hvs, List.append_assoc]

/-- One element, and the rest behind it. -/
theorem at_cons {x : α} :
    At data p (x :: xs) ↔ data[p]? = some x ∧ At data (p + 1) xs := by
  have hsplit : x :: xs = [x] ++ xs := rfl
  rw [hsplit, at_append]
  have hone : At data p [x] ↔ data[p]? = some x := by
    unfold At
    cases hd : data.drop p with
    | nil =>
        have hlen := congrArg List.length hd
        rw [List.length_drop, List.length_nil] at hlen
        rw [List.getElem?_eq_none (by omega)]
        simp
    | cons y l =>
        have hget : data[p]? = some y := by
          have h0 : (data.drop p)[0]? = some y := by rw [hd]; rfl
          rwa [List.getElem?_drop, Nat.add_zero] at h0
        rw [hget]
        simp [eq_comm]
  rw [hone]
  rfl

/-- What stands at an index is determined by its length. -/
theorem At.unique (hx : At data p xs) (hy : At data p ys)
    (hlen : xs.length = ys.length) : xs = ys := by
  rw [← hx.take, ← hy.take, hlen]

/-- Something stands wherever there is room for it. -/
theorem exists_at {n : Nat} (h : p + n ≤ data.length) :
    ∃ zs : List α, zs.length = n ∧ At data p zs := by
  refine ⟨(data.drop p).take n, ?_, List.take_prefix ..⟩
  rw [List.length_take, List.length_drop]
  omega

-- ==================================================== little-endian numbers

/-- The number a byte string stands for, least significant byte first. -/
def le : List UInt8 → Nat
  | [] => 0
  | b :: bs => b.toNat + 256 * le bs

/-- The low `k` bytes of a number, least significant first. -/
def leBytes : Nat → Nat → List UInt8
  | 0, _ => []
  | k + 1, n => UInt8.ofNat n :: leBytes k (n / 256)

@[simp] theorem leBytes_length (k n : Nat) : (leBytes k n).length = k := by
  induction k generalizing n with
  | zero => rfl
  | succ k ih => rw [leBytes, List.length_cons, ih]

/-- A value is bounded by the number of bytes. -/
theorem le_lt (bs : List UInt8) : le bs < 256 ^ bs.length := by
  induction bs with
  | nil => simp [le]
  | cons b bs ih =>
      have hb := b.toNat_lt
      rw [le, List.length_cons, Nat.pow_succ]
      omega

/-- Bytes written for a number have its value, up to what they can hold. -/
theorem le_leBytes (k n : Nat) : le (leBytes k n) = n % 256 ^ k := by
  induction k generalizing n with
  | zero => rw [leBytes, le, Nat.pow_zero, Nat.mod_one]
  | succ k ih =>
      have hpow : 256 ^ (k + 1) = 256 * 256 ^ k := by rw [Nat.pow_succ']
      rw [leBytes, le, ih, UInt8.toNat_ofNat', hpow, Nat.mod_mul]

/-- The later bytes weigh more. -/
theorem le_append (bs cs : List UInt8) :
    le (bs ++ cs) = le bs + 256 ^ bs.length * le cs := by
  induction bs with
  | nil => simp [le]
  | cons b bs ih =>
      rw [List.cons_append, le, le, ih, List.length_cons, Nat.pow_succ]
      ring

end Slice
