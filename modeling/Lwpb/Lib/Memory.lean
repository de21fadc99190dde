/-
A flat byte memory: a byte for every address.

Writers are compared by what they leave where. `read` is the contents of
a range, as a list; `Within m m' lo hi` says that the step from `m` to
`m'` has changed nothing outside the range from `lo` to `hi`. The rules
are the frame rules one expects: a range outside is read as before
(`Within.read`), and steps within ranges compose (`Within.trans`,
`Within.mono`).

`copy` is a copy as `memmove` does it: every byte of the source is taken
from the memory before the copy, so the ranges may overlap.
-/
import Mathlib.Data.List.Basic

namespace Memory

/-- A byte for every address. -/
abbrev Mem := Nat → UInt8

/-- `*a = b`. -/
def put (m : Mem) (a : Nat) (b : UInt8) : Mem :=
  fun i => if i = a then b else m i

/-- Bytes written one after the other. -/
def store (m : Mem) (a : Nat) : List UInt8 → Mem
  | [] => m
  | b :: bs => store (put m a b) (a + 1) bs

/-- `len` bytes of `src`, written at `dst`. -/
def copy (m : Mem) (dst len : Nat) (src : Nat → UInt8) : Mem :=
  fun i => if dst ≤ i ∧ i < dst + len then src (i - dst) else m i

/-- The contents of a range. -/
def read (m : Mem) (a : Nat) : Nat → List UInt8
  | 0 => []
  | n + 1 => m a :: read m (a + 1) n

/-- Nothing outside the range has changed. -/
def Within (m m' : Mem) (lo hi : Nat) : Prop :=
  ∀ i, i < lo ∨ hi ≤ i → m' i = m i

variable {m m' m'' : Mem} {a b lo hi n k : Nat}

-- ================================================================= reading

@[simp] theorem read_length : (read m a n).length = n := by
  induction n generalizing a with
  | zero => rfl
  | succ n ih => rw [read, List.length_cons, ih]

/-- What is read depends on the bytes read only. -/
theorem read_congr (h : ∀ i, a ≤ i → i < a + n → m' i = m i) :
    read m' a n = read m a n := by
  induction n generalizing a with
  | zero => rfl
  | succ n ih =>
      rw [read, read, h a (Nat.le_refl a) (by omega)]
      rw [ih fun i hle hlt => h i (by omega) (by omega)]

/-- Two neighbouring ranges are read as one. -/
theorem read_append : read m a (n + k) = read m a n ++ read m (a + n) k := by
  induction n generalizing a with
  | zero =>
      rw [Nat.zero_add]
      rfl
  | succ n ih =>
      rw [Nat.succ_add, read, read, ih, List.cons_append, Nat.add_assoc,
        Nat.add_comm 1 n]

/-- A range is read by what each of its bytes is. -/
theorem read_eq_map (f : Nat → UInt8)
    (h : ∀ i, i < n → m (a + i) = f i) :
    read m a n = (List.range n).map f := by
  induction n generalizing a f with
  | zero => rfl
  | succ n ih =>
      rw [read, List.range_succ_eq_map, List.map_cons, List.map_map]
      rw [ih (a := a + 1) (fun i => f (i + 1)) fun i hi => by
        rw [← h (i + 1) (by omega)]
        congr 1
        omega]
      rw [← h 0 (by omega)]
      rfl

-- ================================================================== frames

/-- Nothing has changed within any range. -/
theorem Within.refl (m : Mem) (lo hi : Nat) : Within m m lo hi :=
  fun _ _ => rfl

/-- A change within a range is one within a larger range. -/
theorem Within.mono {lo' hi' : Nat} (h : Within m m' lo hi)
    (hlo : lo' ≤ lo) (hhi : hi ≤ hi') : Within m m' lo' hi' :=
  fun i hi => h i (by omega)

/-- Two changes within a range are one. -/
theorem Within.trans (h : Within m m' lo hi) (h' : Within m' m'' lo hi) :
    Within m m'' lo hi :=
  fun i hi => (h' i hi).trans (h i hi)

/-- A range outside is read as before. -/
theorem Within.read (h : Within m m' lo hi) (hout : a + n ≤ lo ∨ hi ≤ a) :
    Memory.read m' a n = Memory.read m a n :=
  read_congr fun i hle hlt => h i (by omega)

-- ================================================================= writing

/-- A store changes its own range only. -/
theorem store_within (bs : List UInt8) :
    Within m (store m a bs) a (a + bs.length) := by
  induction bs generalizing m a with
  | nil => exact .refl m _ _
  | cons b bs ih =>
      intro i hi
      rw [List.length_cons] at hi
      rw [store, ih i (by omega), put, if_neg (by omega)]

/-- What was stored is there. -/
theorem read_store (bs : List UInt8) :
    read (store m a bs) a bs.length = bs := by
  induction bs generalizing m a with
  | nil => rfl
  | cons b bs ih =>
      rw [List.length_cons, store, read, ih,
        store_within bs a (.inl (Nat.lt_succ_self a)), put, if_pos rfl]

/-- Storing two strings is storing their concatenation. -/
theorem store_append (bs cs : List UInt8) :
    store m a (bs ++ cs) = store (store m a bs) (a + bs.length) cs := by
  induction bs generalizing m a with
  | nil => rfl
  | cons b bs ih =>
      rw [List.cons_append, store, ih, store, List.length_cons,
        Nat.add_assoc, Nat.add_comm 1]

/-- A byte of a stored range, and one outside of it. -/
theorem store_apply (bs : List UInt8) (i : Nat) :
    store m a bs i
      = if a ≤ i ∧ i < a + bs.length then bs.getD (i - a) 0 else m i := by
  induction bs generalizing m a with
  | nil =>
      rw [store, List.length_nil, if_neg (by omega)]
  | cons b bs ih =>
      rw [store, ih, List.length_cons, put]
      by_cases hi : i = a
      · subst hi
        rw [if_neg (by omega), if_pos rfl, if_pos (by omega), Nat.sub_self]
        rfl
      · by_cases hin : a ≤ i ∧ i < a + (bs.length + 1)
        · have hsub : i - a = i - (a + 1) + 1 := by omega
          rw [if_pos (by omega), if_pos hin, hsub]
          rfl
        · rw [if_neg (by omega), if_neg hi, if_neg hin]

/-- A copy changes its own range only. -/
theorem copy_within (src : Nat → UInt8) :
    Within m (copy m a n src) a (a + n) :=
  fun i hi => if_neg (by omega)

@[simp] theorem copy_zero (src : Nat → UInt8) : copy m a 0 src = m := by
  funext i
  exact if_neg (by omega)

/-- A copy grows at its end, byte by byte. -/
theorem copy_succ (src : Nat → UInt8) :
    put (copy m a n src) (a + n) (src n) = copy m a (n + 1) src := by
  funext i
  rw [put, copy, copy]
  by_cases hi : i = a + n
  · subst hi
    rw [if_pos rfl, if_pos (by omega), Nat.add_sub_cancel_left]
  · rw [if_neg hi]
    by_cases hin : a ≤ i ∧ i < a + n
    · rw [if_pos hin, if_pos (by omega)]
    · rw [if_neg hin, if_neg (by omega)]

/-- A range copied onto itself. -/
theorem copy_self : copy m a n (fun i => m (a + i)) = m := by
  funext i
  rw [copy]
  by_cases hin : a ≤ i ∧ i < a + n
  · rw [if_pos hin, Nat.add_sub_cancel' hin.1]
  · rw [if_neg hin]

/-- A copy of bytes from elsewhere stores them. -/
theorem copy_eq_store {bs : List UInt8} {src : Nat → UInt8}
    (h : (List.range bs.length).map src = bs) :
    copy m a bs.length src = store m a bs := by
  funext i
  rw [store_apply, copy]
  by_cases hi : a ≤ i ∧ i < a + bs.length
  · have hlt : i - a < bs.length := by omega
    have hget : (bs.getD (i - a) 0) = src (i - a) := by
      rw [List.getD_eq_getElem?_getD]
      conv_lhs => rw [← h]
      rw [List.getElem?_map, List.getElem?_range hlt]
      rfl
    rw [if_pos hi, if_pos hi, hget]
  · rw [if_neg hi, if_neg hi]

/-- What was copied is there. -/
theorem read_copy (src : Nat → UInt8) :
    read (copy m a n src) a n = (List.range n).map src := by
  refine read_eq_map src fun i hi => ?_
  rw [copy, if_pos (by omega)]
  congr 1
  omega

end Memory
