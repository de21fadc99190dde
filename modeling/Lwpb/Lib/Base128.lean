/-
Base-128 numbers on byte strings: the variable-length integers of the
wire format, as mathematics.

A varint is a byte string whose every byte but the last has the high bit
set; its low seven bits, least significant group first, are the number.
`Terminated` is the syntax, `value` the meaning and `encode` the shortest
form. The code's readers and writers work on 64-bit words with shifts
and masks; this file knows numbers only, and its three facts are what
they are compared with:

- varints are prefix-free (`Terminated.prefix_free`), so a stream of
  them has one reading;
- `encode` is a section of `value` (`value_encode`) and no varint of the
  same value is shorter (`encode_length_le_of_le`);
- a byte string either starts with a varint or is all continuation
  bytes (`split_or_open`).
-/
import Mathlib.Data.List.Basic
import Mathlib.Tactic.Ring
import Mathlib.Tactic.Linarith

namespace Base128

/-- A whole varint: continuation bytes, then one byte without the high
bit. -/
def Terminated : List UInt8 → Prop
  | [] => False
  | b :: bs => if b.toNat < 128 then bs = [] else Terminated bs

instance decidableTerminated : (bs : List UInt8) → Decidable (Terminated bs)
  | [] => inferInstanceAs (Decidable False)
  | b :: bs =>
      have := decidableTerminated bs
      inferInstanceAs
        (Decidable (if b.toNat < 128 then bs = [] else Terminated bs))

/-- The number a varint stands for: seven bits a byte, least significant
first. -/
def value : List UInt8 → Nat
  | [] => 0
  | b :: bs => b.toNat % 128 + 128 * value bs

/-- All bytes are continuation bytes: a varint cut off before its end. -/
def Open (bs : List UInt8) : Prop := ∀ b ∈ bs, 128 ≤ b.toNat

instance (bs : List UInt8) : Decidable (Open bs) :=
  inferInstanceAs (Decidable (∀ b ∈ bs, 128 ≤ b.toNat))

-- ============================================================== the syntax

/-- A terminated string has a last byte. -/
theorem Terminated.ne_nil {bs : List UInt8} (h : Terminated bs) :
    bs ≠ [] := by
  intro h
  subst h
  exact h

/-- So it is not empty. -/
theorem Terminated.length_pos {bs : List UInt8} (h : Terminated bs) :
    0 < bs.length :=
  List.length_pos_iff.mpr h.ne_nil

/-- A byte below 128 ends it. -/
theorem terminated_cons_lt {b : UInt8} {bs : List UInt8}
    (hb : b.toNat < 128) : Terminated (b :: bs) ↔ bs = [] := by
  simp [Terminated, hb]

/-- Any other byte goes on. -/
theorem terminated_cons_ge {b : UInt8} {bs : List UInt8}
    (hb : 128 ≤ b.toNat) : Terminated (b :: bs) ↔ Terminated bs := by
  have hnot : ¬ b.toNat < 128 := by omega
  simp [Terminated, hnot]

/-- Varints are prefix-free: two of them at the head of one string are
the same varint. -/
theorem Terminated.prefix_free {u v x y : List UInt8}
    (hu : Terminated u) (hv : Terminated v) (h : u ++ x = v ++ y) :
    u = v ∧ x = y := by
  induction u generalizing v with
  | nil => exact hu.elim
  | cons b u ih =>
      cases v with
      | nil => exact hv.elim
      | cons c v =>
          simp only [List.cons_append, List.cons.injEq] at h
          obtain ⟨rfl, htail⟩ := h
          by_cases hb : b.toNat < 128
          · rw [terminated_cons_lt hb] at hu hv
            subst hu hv
            exact ⟨rfl, by simpa using htail⟩
          · rw [terminated_cons_ge (by omega)] at hu hv
            obtain ⟨rfl, rfl⟩ := ih hu hv htail
            exact ⟨rfl, rfl⟩

/-- Every byte string starts with a varint or is cut off inside one. -/
theorem split_or_open (bs : List UInt8) :
    (∃ v rest, bs = v ++ rest ∧ Terminated v) ∨ Open bs := by
  induction bs with
  | nil => exact .inr fun b hb => (List.not_mem_nil hb).elim
  | cons b bs ih =>
      by_cases hb : b.toNat < 128
      · exact .inl ⟨[b], bs, rfl, (terminated_cons_lt hb).mpr rfl⟩
      · rcases ih with ⟨v, rest, rfl, hv⟩ | hopen
        · exact .inl ⟨b :: v, rest, rfl,
            (terminated_cons_ge (by omega)).mpr hv⟩
        · refine .inr fun c hc => ?_
          rcases List.mem_cons.mp hc with rfl | hc
          · omega
          · exact hopen c hc

/-- An all-continuation string does not start with a varint. -/
theorem Open.not_terminated_prefix {v rest : List UInt8}
    (h : Open (v ++ rest)) : ¬ Terminated v := by
  induction v with
  | nil => exact fun hv => hv
  | cons b v ih =>
      intro hv
      have hb : 128 ≤ b.toNat := h b (by simp)
      refine ih (fun c hc => h c ?_) ((terminated_cons_ge hb).mp hv)
      rw [List.cons_append]
      exact List.mem_cons_of_mem b hc

/-- Continuation bytes in front of a varint make a longer one. -/
theorem open_append_terminated {c v : List UInt8} (hc : Open c)
    (hv : Terminated v) : Terminated (c ++ v) := by
  induction c with
  | nil => exact hv
  | cons b c ih =>
      rw [List.cons_append, terminated_cons_ge (hc b List.mem_cons_self)]
      exact ih fun x hx => hc x (List.mem_cons_of_mem b hx)

-- ========================================================= the short form

/-- The shortest varint of a number, with `fuel` bytes at most before
the last one. -/
def encodeAux : Nat → Nat → List UInt8
  | 0, n => [UInt8.ofNat (n % 128)]
  | fuel + 1, n =>
      if n < 128 then [UInt8.ofNat n]
      else UInt8.ofNat (n % 128 + 128) :: encodeAux fuel (n / 128)

/-- The shortest varint of a number. -/
def encode (n : Nat) : List UInt8 := encodeAux n n

private theorem encodeAux_fuel :
    ∀ (fuel fuel' n : Nat), n ≤ fuel → n ≤ fuel' →
      encodeAux fuel n = encodeAux fuel' n := by
  intro fuel
  induction fuel with
  | zero =>
      intro fuel' n hn _
      have h0 : n = 0 := by omega
      subst h0
      cases fuel' <;> rfl
  | succ f ih =>
      intro fuel' n hn hn'
      cases fuel' with
      | zero =>
          have h0 : n = 0 := by omega
          subst h0
          rfl
      | succ f' =>
          simp only [encodeAux]
          split
          · rfl
          · rw [ih f' (n / 128) (by omega) (by omega)]

/-- A small number is one byte. -/
theorem encode_of_lt {n : Nat} (h : n < 128) :
    encode n = [UInt8.ofNat n] := by
  unfold encode
  cases n with
  | zero => rfl
  | succ n => simp [encodeAux, h]

/-- A larger one is its low seven bits and the rest. -/
theorem encode_of_ge {n : Nat} (h : 128 ≤ n) :
    encode n = UInt8.ofNat (n % 128 + 128) :: encode (n / 128) := by
  unfold encode
  cases n with
  | zero => omega
  | succ n =>
      have hnot : ¬ n + 1 < 128 := by omega
      simp only [encodeAux, hnot, if_false]
      rw [encodeAux_fuel n ((n + 1) / 128) ((n + 1) / 128) (by omega)
        (Nat.le_refl _)]

/-- A byte holds every number below 256. -/
theorem toNat_ofNat_of_lt {n : Nat} (h : n < 256) :
    (UInt8.ofNat n).toNat = n := by
  rw [UInt8.toNat_ofNat']
  exact Nat.mod_eq_of_lt h

/-- What is written is terminated. -/
theorem encode_terminated (n : Nat) : Terminated (encode n) := by
  induction n using Nat.strongRecOn with
  | ind n ih =>
      by_cases h : n < 128
      · rw [encode_of_lt h]
        exact (terminated_cons_lt (by
          rw [toNat_ofNat_of_lt (by omega)]; exact h)).mpr rfl
      · rw [encode_of_ge (by omega)]
        exact (terminated_cons_ge (by
          rw [toNat_ofNat_of_lt (by omega)]; omega)).mpr
          (ih (n / 128) (by omega))

/-- And has the value it was written for. -/
theorem value_encode (n : Nat) : value (encode n) = n := by
  induction n using Nat.strongRecOn with
  | ind n ih =>
      by_cases h : n < 128
      · rw [encode_of_lt h, value, value, toNat_ofNat_of_lt (by omega)]
        omega
      · rw [encode_of_ge (by omega), value, ih (n / 128) (by omega),
          toNat_ofNat_of_lt (by omega)]
        omega

/-- It has at least one byte. -/
theorem encode_length_pos (n : Nat) : 0 < (encode n).length :=
  (encode_terminated n).length_pos

/-- A number below `128 ^ (k + 1)` takes at most `k + 1` bytes. -/
theorem encode_length_le_of_lt {k n : Nat} (h : n < 128 ^ (k + 1)) :
    (encode n).length ≤ k + 1 := by
  induction k generalizing n with
  | zero =>
      rw [encode_of_lt (by simpa using h)]
      simp
  | succ k ih =>
      by_cases hn : n < 128
      · rw [encode_of_lt hn]
        simp
      · rw [encode_of_ge (by omega), List.length_cons]
        have hdiv : n / 128 < 128 ^ (k + 1) := by
          rw [Nat.div_lt_iff_lt_mul (by omega)]
          calc n < 128 ^ (k + 1 + 1) := h
            _ = 128 ^ (k + 1) * 128 := Nat.pow_succ ..
        have := ih hdiv
        omega

/-- Seven bits a byte bound the value. -/
theorem value_lt (bs : List UInt8) : value bs < 128 ^ bs.length := by
  induction bs with
  | nil => simp [value]
  | cons b bs ih =>
      rw [value, List.length_cons, Nat.pow_succ]
      omega

/-- `encode` is the shortest: no varint of the same or a greater value
is shorter. -/
theorem encode_length_le_of_le {bs : List UInt8} {n : Nat}
    (h : Terminated bs) (hn : n ≤ value bs) :
    (encode n).length ≤ bs.length := by
  have hlt := value_lt bs
  obtain ⟨k, hk⟩ : ∃ k, bs.length = k + 1 :=
    ⟨bs.length - 1, by have := h.length_pos; omega⟩
  rw [hk] at hlt ⊢
  exact encode_length_le_of_lt (by omega)

/-- The varint of a sum is no longer than those of its parts. -/
theorem encode_length_add_le (a b : Nat) :
    (encode (a + b)).length ≤ (encode a).length + (encode b).length := by
  have ha := value_lt (encode a)
  have hb := value_lt (encode b)
  rw [value_encode] at ha hb
  obtain ⟨i, hi⟩ := Nat.exists_eq_succ_of_ne_zero
    (Nat.ne_of_gt (encode_length_pos a))
  obtain ⟨j, hj⟩ := Nat.exists_eq_succ_of_ne_zero
    (Nat.ne_of_gt (encode_length_pos b))
  rw [hi, Nat.pow_succ] at ha
  rw [hj, Nat.pow_succ] at hb
  rw [hi, hj]
  have hsum : a + b < 128 ^ (i + j + 1 + 1) := by
    have hipos : 0 < 128 ^ i := Nat.pow_pos (by decide)
    have hjpos : 0 < 128 ^ j := Nat.pow_pos (by decide)
    calc a + b ≤ 128 ^ i * 128 + 128 ^ j * 128 := by omega
      _ ≤ (128 ^ i * 128 ^ j) * 128 + (128 ^ i * 128 ^ j) * 128 :=
        Nat.add_le_add
          (Nat.mul_le_mul_right _ (Nat.le_mul_of_pos_right _ hjpos))
          (Nat.mul_le_mul_right _ (Nat.le_mul_of_pos_left _ hipos))
      _ < 128 ^ i * 128 ^ j * 128 * 128 := by
        have hboth := Nat.mul_pos hipos hjpos
        omega
      _ = 128 ^ (i + j + 1 + 1) := by
        rw [Nat.pow_succ, Nat.pow_succ, Nat.pow_add]
  have hlen := encode_length_le_of_lt hsum
  omega

end Base128
