/-
Signed numbers in words: two's complement and zig-zag.

A signed number goes into a word of `w` bits in two ways. Its `residue`
modulo `2 ^ w` is what a conversion to an unsigned type leaves
(`toNat_eq_residue`). Its `zigzag` code is small for a number near zero of
either sign; programs compute it, and its inverse, with shifts and an
exclusive or with the sign (`toNat_zigzag`, `toNat_unzigzag`).
-/
import Mathlib.Tactic.NormNum
import Mathlib.Tactic.Positivity
import Mathlib.Tactic.Zify

namespace TwosComplement

/-- The zig-zag code of a signed number. -/
def zigzag (n : Int) : Nat :=
  if 0 ≤ n then (2 * n).toNat else (-2 * n - 1).toNat

/-- A signed number as a word of `w` bits. -/
def residue (w : Nat) (n : Int) : Nat := (n % 2 ^ w).toNat

variable {w : Nat}

theorem toNat_eq_residue (x : BitVec w) : x.toNat = residue w x.toInt := by
  conv_lhs => rw [← BitVec.ofInt_toInt (x := x), BitVec.toNat_ofInt]
  unfold residue
  norm_cast

/-- A signed number of 32 bits, as an unsigned one. -/
theorem int32_word (v : Int32) : v.toUInt32.toNat = residue 32 v.toInt :=
  toNat_eq_residue v.toBitVec

/-- A signed number of 64 bits, as an unsigned one. -/
theorem int64_word (v : Int64) : v.toUInt64.toNat = residue 64 v.toInt :=
  toNat_eq_residue v.toBitVec

theorem residue_lt (n : Int) : residue w n < 2 ^ w := by
  have hpos : (0 : Int) < 2 ^ w := by positivity
  have hlt := Int.emod_lt_of_pos n hpos
  have hnonneg := Int.emod_nonneg n (ne_of_gt hpos)
  refine (Int.toNat_lt hnonneg).mpr ?_
  push_cast
  exact hlt

/-- The low bits of a residue are the residue of fewer bits. -/
theorem residue_mod {k : Nat} (h : k ≤ w) (n : Int) :
    residue w n % 2 ^ k = residue k n := by
  have hw : (0 : Int) < 2 ^ w := by positivity
  have hk : (0 : Int) < 2 ^ k := by positivity
  have hdvd : (2 ^ k : Int) ∣ 2 ^ w := pow_dvd_pow 2 h
  unfold residue
  zify
  rw [Int.toNat_of_nonneg (Int.emod_nonneg _ (ne_of_gt hw)),
    Int.toNat_of_nonneg (Int.emod_nonneg _ (ne_of_gt hk)),
    Int.emod_emod_of_dvd _ hdvd]

/-- The residue of an unsigned number is what fits. -/
theorem residue_natCast (n : Nat) : residue w n = n % 2 ^ w := by
  unfold residue
  norm_cast

theorem residue_of_nonneg {n : Int} (h : 0 ≤ n) (hlt : n < 2 ^ w) :
    residue w n = n.toNat := by
  rw [residue, Int.emod_eq_of_lt h hlt]

theorem residue_of_neg {n : Int} (h : n < 0) (hle : -2 ^ w ≤ n) :
    residue w n = (2 ^ w + n).toNat := by
  rw [residue, ← Int.add_emod_left, Int.emod_eq_of_lt (by omega) (by omega)]

-- ================================================================= zig-zag

/-- The arithmetic shift by all but the sign bit. -/
theorem sshiftRight_sign (x : BitVec (w + 1)) :
    x.sshiftRight w = if x.toInt < 0 then BitVec.allOnes _ else 0#_ := by
  have hlo := BitVec.le_toInt x
  have hhi := BitVec.toInt_lt (x := x)
  rw [Nat.add_sub_cancel] at hlo hhi
  apply BitVec.eq_of_toInt_eq
  rw [BitVec.toInt_sshiftRight, Int.shiftRight_eq_div_pow]
  push_cast
  split
  · next hneg =>
      rw [BitVec.toInt_allOnes, if_pos (Nat.succ_pos w)]
      rw [Int.ediv_eq_iff_of_pos (by positivity)]
      constructor <;> omega
  · next hpos =>
      rw [BitVec.toInt_zero]
      exact Int.ediv_eq_zero_of_lt (by omega) hhi

/-- A signed number by its unsigned reading. -/
theorem toInt_cases (x : BitVec (w + 1)) :
    (x.toInt < 0 ∧ (x.toInt : Int) = x.toNat - (2 * 2 ^ w : Nat) ∧
      2 ^ w ≤ x.toNat) ∨
    (0 ≤ x.toInt ∧ x.toInt = x.toNat ∧ x.toNat < 2 ^ w) := by
  have hcond := BitVec.toInt_eq_toNat_cond x
  have hlt := x.isLt
  rw [Nat.pow_succ, Nat.mul_comm (2 ^ w)] at hlt hcond
  split at hcond
  · exact .inr ⟨by omega, hcond, by omega⟩
  · exact .inl ⟨by omega, hcond, by omega⟩

/-- The zig-zag code, as programs compute it. -/
theorem toNat_zigzag (x : BitVec (w + 1)) :
    ((x <<< 1) ^^^ x.sshiftRight w).toNat = zigzag x.toInt := by
  have hshift : (x <<< 1).toNat = 2 * x.toNat % (2 * 2 ^ w) := by
    rw [BitVec.toNat_shiftLeft, Nat.shiftLeft_eq, Nat.pow_one, Nat.mul_comm,
      Nat.pow_succ, Nat.mul_comm (2 ^ w)]
  have hlt : x.toNat < 2 * 2 ^ w := by
    have := x.isLt
    rwa [Nat.pow_succ, Nat.mul_comm] at this
  rw [sshiftRight_sign]
  unfold zigzag
  rcases toInt_cases x with ⟨hneg, hval, hge⟩ | ⟨hnonneg, hval, hlt'⟩
  · have hmod : 2 * x.toNat % (2 * 2 ^ w) = 2 * x.toNat - 2 * 2 ^ w := by
      rw [Nat.mod_eq_sub_mod (by omega), Nat.mod_eq_of_lt (by omega)]
    rw [if_pos hneg, if_neg (by omega), BitVec.xor_allOnes,
      BitVec.toNat_not, hshift, hmod, hval, Nat.pow_succ]
    omega
  · rw [if_neg (by omega), if_pos hnonneg, BitVec.xor_zero, hshift,
      Nat.mod_eq_of_lt (by omega), hval]
    omega

/-- The number that a zig-zag code stands for. -/
def unzigzag (n : Nat) : Int :=
  if n % 2 = 0 then (n / 2 : Nat) else -(n / 2 : Nat) - 1

/-- The code of a number stands for that number. -/
theorem unzigzag_zigzag (n : Int) : unzigzag (zigzag n) = n := by
  unfold zigzag unzigzag
  by_cases hn : 0 ≤ n
  · rw [if_pos hn, if_pos (by omega)]
    omega
  · rw [if_neg hn, if_neg (by omega)]
    omega

/-- The number of a code of `w` bits, as a word of `w` bits. -/
theorem residue_unzigzag {n : Nat} (h : n < 2 ^ w) :
    residue w (unzigzag n)
      = if n % 2 = 0 then n / 2 else 2 ^ w - 1 - n / 2 := by
  have hcast : ((2 ^ w : Nat) : Int) = 2 ^ w := by push_cast; rfl
  unfold unzigzag
  split
  · rw [residue_of_nonneg (by omega) (by omega)]
    omega
  · rw [residue_of_neg (by omega) (by omega), ← hcast]
    omega

/-- The number of a zig-zag code, as programs compute it. -/
theorem toNat_unzigzag (x : BitVec w) (hw : 0 < w) :
    ((x >>> 1) ^^^ -(x &&& 1#w)).toNat = residue w (unzigzag x.toNat) := by
  have hbit : x &&& 1#w = if x.toNat % 2 = 0 then 0#w else 1#w := by
    apply BitVec.eq_of_toNat_eq
    rw [BitVec.toNat_and, BitVec.toNat_ofNat, Nat.mod_eq_of_lt
      (Nat.one_lt_two_pow (by omega)), Nat.and_one_is_mod]
    split
    · next heven => rw [heven, BitVec.toNat_ofNat, Nat.zero_mod]
    · next hodd =>
        rw [BitVec.toNat_ofNat,
          Nat.mod_eq_of_lt (Nat.one_lt_two_pow (by omega))]
        omega
  have hhalf : (x >>> 1).toNat = x.toNat / 2 := by
    rw [BitVec.toNat_ushiftRight, Nat.shiftRight_eq_div_pow, Nat.pow_one]
  rw [hbit, residue_unzigzag x.isLt]
  split
  · rw [BitVec.neg_zero, BitVec.xor_zero, hhalf]
  · rw [BitVec.neg_one_eq_allOnes, BitVec.xor_allOnes, BitVec.toNat_not,
      hhalf]

end TwosComplement
