/-
A float through a double, and back.

A float is widened exactly, so that narrowing finds nothing to round: the
double is the same float again (`narrow_widen`), unless it is a NaN, which
comes back quiet. Either way one trip is enough (`widened_back`): the double
of what comes back is the same double.

Floats and doubles are their bits, taken apart into sign, exponent and
fraction (`float_parts`, `double_parts`). A normal float keeps its
fraction, with zeros behind; a float without a leading one is given one,
by as many places as its highest bit is away, and narrowing shifts it
back. So there is one lemma for each kind of float (`narrow_normal`,
`narrow_subnormal`, `narrow_zero`, `narrow_infinity`), each a computation
with powers of two.
-/
import Lwpb.Python.Decoder
import Lwpb.Python.Encoder

namespace Lwpb.Python

-- =================================================================== rounding

theorem roundEven_exact (x k : Nat) : roundEven (x * 2 ^ k) k = x := by
  have hpos : 0 < 2 ^ k := Nat.two_pow_pos k
  unfold roundEven
  rw [Nat.mul_div_cancel x hpos, Nat.mul_mod_left]
  exact if_neg (by omega)

-- ====================================================================== parts

/-- The fields of a double. -/
theorem double_parts {s e f : Nat} (hs : s < 2) (he : e < 2 ^ 11)
    (hf : f < 2 ^ 52) :
    (UInt64.ofNat (s * 2 ^ 63 + e * 2 ^ 52 + f)).toNat / 2 ^ 63 = s ∧
      (UInt64.ofNat (s * 2 ^ 63 + e * 2 ^ 52 + f)).toNat / 2 ^ 52 % 2 ^ 11
        = e ∧
      (UInt64.ofNat (s * 2 ^ 63 + e * 2 ^ 52 + f)).toNat % 2 ^ 52 = f := by
  have hword : (UInt64.ofNat (s * 2 ^ 63 + e * 2 ^ 52 + f)).toNat
      = s * 2 ^ 63 + e * 2 ^ 52 + f :=
    UInt64.toNat_ofNat_of_lt' (by
      show _ < 2 ^ 64
      omega)
  rw [hword]
  omega

/-- The fields of a float. -/
theorem float_parts {s e f : Nat} (hs : s < 2) (he : e < 2 ^ 8)
    (hf : f < 2 ^ 23) :
    (UInt32.ofNat (s * 2 ^ 31 + e * 2 ^ 23 + f)).toNat / 2 ^ 31 = s ∧
      (UInt32.ofNat (s * 2 ^ 31 + e * 2 ^ 23 + f)).toNat / 2 ^ 23 % 2 ^ 8
        = e ∧
      (UInt32.ofNat (s * 2 ^ 31 + e * 2 ^ 23 + f)).toNat % 2 ^ 23 = f := by
  have hword : (UInt32.ofNat (s * 2 ^ 31 + e * 2 ^ 23 + f)).toNat
      = s * 2 ^ 31 + e * 2 ^ 23 + f :=
    UInt32.toNat_ofNat_of_lt' (by
      show _ < 2 ^ 32
      omega)
  rw [hword]
  omega

/-- A float has fields. -/
theorem exists_parts (b : UInt32) : ∃ s e f, s < 2 ∧ e < 2 ^ 8 ∧
    f < 2 ^ 23 ∧ b = UInt32.ofNat (s * 2 ^ 31 + e * 2 ^ 23 + f) := by
  have hb := b.toNat_lt
  refine ⟨b.toNat / 2 ^ 31, b.toNat / 2 ^ 23 % 2 ^ 8, b.toNat % 2 ^ 23,
    by omega, by omega, by omega, ?_⟩
  have hsum : b.toNat / 2 ^ 31 * 2 ^ 31 + b.toNat / 2 ^ 23 % 2 ^ 8 * 2 ^ 23
      + b.toNat % 2 ^ 23 = b.toNat := by omega
  rw [hsum, UInt32.ofNat_toNat]

/-- The exponents that are no number's. -/
theorem exponents_top : 0x7ff0000000000000 = 0x7ff * 2 ^ 52 ∧
    0x7f800000 = 0xff * 2 ^ 23 := by
  decide

-- ====================================================================== cases

section

variable {s e f : Nat} (hs : s < 2)
include hs

/-- A finite double, narrowed without rounding. -/
theorem narrow_exact {e f x : Nat} (he : e < 0x7ff) (hpos : 0 < e)
    (hf : f < 2 ^ 52) (hm : f + 2 ^ 52 = x * 2 ^ (29 + (897 - e)))
    (hmax : (e - 897) * 2 ^ 23 + x ≤ 0x7f800000) :
    doubleToFloat (UInt64.ofNat (s * 2 ^ 63 + e * 2 ^ 52 + f))
      = UInt32.ofNat (s * 2 ^ 31 + ((e - 897) * 2 ^ 23 + x)) := by
  obtain ⟨hsign, hexp, hfrac⟩ := double_parts hs (by omega : e < 2 ^ 11) hf
  unfold doubleToFloat
  simp only [hsign, hexp, hfrac]
  rw [if_neg (by omega), if_neg (by omega), Nat.max_eq_left hpos, hm,
    roundEven_exact, Nat.min_eq_left hmax]

/-- A normal float. -/
theorem narrow_normal (he : 0 < e) (he' : e < 0xff) (hf : f < 2 ^ 23) :
    doubleToFloat (floatToDouble
        (UInt32.ofNat (s * 2 ^ 31 + e * 2 ^ 23 + f)))
      = UInt32.ofNat (s * 2 ^ 31 + e * 2 ^ 23 + f) := by
  have hless : f * 2 ^ 29 < 2 ^ 52 := by omega
  have hshift : 29 + (897 - (e + 896)) = 29 := by omega
  have hlead : f * 2 ^ 29 + 2 ^ 52 = (f + 2 ^ 23) * 2 ^ 29 := by omega
  have hmax : (e + 896 - 897) * 2 ^ 23 + (f + 2 ^ 23) ≤ 0x7f800000 := by
    omega
  -- the leading one is the exponent's
  have hone : ∀ p, (e + 896 - 897) * p + p = e * p := fun p => by
    have hexp : e + 896 - 897 + 1 = e := by omega
    rw [← Nat.add_one_mul, hexp]
  have hsum : s * 2 ^ 31 + ((e + 896 - 897) * 2 ^ 23 + (f + 2 ^ 23))
      = s * 2 ^ 31 + e * 2 ^ 23 + f := by
    rw [Nat.add_comm f, ← Nat.add_assoc _ _ f, hone, Nat.add_assoc]
  obtain ⟨hsign, hexp, hfrac⟩ := float_parts hs (by omega : e < 2 ^ 8) hf
  have hwide : floatToDouble (UInt32.ofNat (s * 2 ^ 31 + e * 2 ^ 23 + f))
      = UInt64.ofNat (s * 2 ^ 63 + (e + 896) * 2 ^ 52 + f * 2 ^ 29) := by
    unfold floatToDouble
    simp only [hsign, hexp, hfrac]
    rw [if_neg (Nat.ne_of_lt he'), if_neg (Nat.ne_of_gt he)]
  rw [hwide, narrow_exact hs (by omega) (by omega) hless
    (by rw [hshift]; exact hlead) hmax, hsum]

/-- A float without a leading one. -/
theorem narrow_subnormal (hpos : 0 < f) (hf : f < 2 ^ 23) :
    doubleToFloat (floatToDouble (UInt32.ofNat (s * 2 ^ 31 + 0 * 2 ^ 23 + f)))
      = UInt32.ofNat (s * 2 ^ 31 + 0 * 2 ^ 23 + f) := by
  obtain ⟨hsign, hexp, hfrac⟩ := float_parts hs (by omega : 0 < 2 ^ 8) hf
  have hlow : 2 ^ f.log2 ≤ f := Nat.log2_self_le (Nat.ne_of_gt hpos)
  have hhigh : f < 2 ^ (f.log2 + 1) := Nat.lt_log2_self
  have hlog : f.log2 < 23 := (Nat.log2_lt (Nat.ne_of_gt hpos)).mpr hf
  have hwide : floatToDouble
        (UInt32.ofNat (s * 2 ^ 31 + 0 * 2 ^ 23 + f))
      = UInt64.ofNat (s * 2 ^ 63 + (f.log2 + 874) * 2 ^ 52
        + (f - 2 ^ f.log2) * 2 ^ (52 - f.log2)) := by
    unfold floatToDouble
    simp only [hsign, hexp, hfrac]
    rw [if_neg (by omega), if_pos trivial, if_neg (by omega)]
  have hsum : 2 ^ f.log2 * 2 ^ (52 - f.log2) = 2 ^ 52 := by
    rw [← Nat.pow_add, Nat.add_sub_cancel' (by omega)]
  have hone : (f - 2 ^ f.log2) * 2 ^ (52 - f.log2) + 2 ^ 52
      = f * 2 ^ (52 - f.log2) := by
    rw [← hsum, ← Nat.add_mul, Nat.sub_add_cancel hlow]
  have hless : (f - 2 ^ f.log2) * 2 ^ (52 - f.log2) < 2 ^ 52 := by
    rw [← hsum]
    refine Nat.mul_lt_mul_of_pos_right ?_ (Nat.two_pow_pos _)
    rw [Nat.pow_succ] at hhigh
    omega
  have hshift : 29 + (897 - (f.log2 + 874)) = 52 - f.log2 := by omega
  have hparts : s * 2 ^ 31 + ((f.log2 + 874 - 897) * 2 ^ 23 + f)
      = s * 2 ^ 31 + 0 * 2 ^ 23 + f := by omega
  rw [hwide, narrow_exact hs (x := f) (by omega) (by omega) hless
    (by rw [hshift]; exact hone) (by omega), hparts]

theorem narrow_zero :
    doubleToFloat (floatToDouble
        (UInt32.ofNat (s * 2 ^ 31 + 0 * 2 ^ 23 + 0)))
      = UInt32.ofNat (s * 2 ^ 31 + 0 * 2 ^ 23 + 0) := by
  obtain ⟨hsign, hexp, hfrac⟩ := @float_parts s 0 0 hs (by omega) (by omega)
  obtain ⟨hsign', hexp', hfrac'⟩ :=
    @double_parts s 0 0 hs (by omega) (by omega)
  have hwide : floatToDouble (UInt32.ofNat (s * 2 ^ 31 + 0 * 2 ^ 23 + 0))
      = UInt64.ofNat (s * 2 ^ 63 + 0 * 2 ^ 52 + 0) := by
    unfold floatToDouble
    simp only [hsign, hexp, hfrac]
    rw [if_neg (by omega), if_pos trivial, if_pos trivial, Nat.zero_mul,
      Nat.add_zero]
  have hround : ∀ k, roundEven 0 k = 0 := fun k => by
    have hzero := roundEven_exact 0 k
    rwa [Nat.zero_mul] at hzero
  rw [hwide]
  unfold doubleToFloat
  simp only [hsign', hexp', hfrac']
  have hexp0 : max 0 1 - 897 = 0 := by decide
  rw [if_neg (by omega), if_pos trivial, Nat.add_zero, hround, hexp0]
  simp only [Nat.zero_mul, Nat.add_zero, Nat.zero_min]

/-- An infinity. -/
theorem narrow_infinity :
    doubleToFloat (floatToDouble
        (UInt32.ofNat (s * 2 ^ 31 + 0xff * 2 ^ 23 + 0)))
      = UInt32.ofNat (s * 2 ^ 31 + 0xff * 2 ^ 23 + 0) := by
  obtain ⟨hsign, hexp, hfrac⟩ :=
    @float_parts s 0xff 0 hs (by omega) (by omega)
  obtain ⟨hsign', hexp', hfrac'⟩ :=
    @double_parts s 0x7ff 0 hs (by omega) (by omega)
  have hwide : floatToDouble (UInt32.ofNat (s * 2 ^ 31 + 0xff * 2 ^ 23 + 0))
      = UInt64.ofNat (s * 2 ^ 63 + 0x7ff * 2 ^ 52 + 0) := by
    unfold floatToDouble
    simp only [hsign, hexp, hfrac]
    rw [if_pos trivial, if_pos trivial, exponents_top.1]
  rw [hwide]
  unfold doubleToFloat
  simp only [hsign', hexp', hfrac']
  rw [if_pos trivial, if_pos trivial, exponents_top.2]

/-- A float that is no number, and its double. -/
theorem widen_nan (hpos : 0 < f) (hf : f < 2 ^ 23) :
    floatToDouble (UInt32.ofNat (s * 2 ^ 31 + 0xff * 2 ^ 23 + f))
      = UInt64.ofNat (s * 2 ^ 63 + 0x7ff * 2 ^ 52
        + (2 ^ 22 ||| f) * 2 ^ 29) := by
  obtain ⟨hsign, hexp, hfrac⟩ := float_parts hs (by omega : 0xff < 2 ^ 8) hf
  have hquiet : (2 ^ 22 ||| f) * 2 ^ 29 = 0x8000000000000 ||| f * 2 ^ 29 := by
    rw [← Nat.shiftLeft_eq, Nat.shiftLeft_or_distrib, Nat.shiftLeft_eq f]
    congr 1
  unfold floatToDouble
  simp only [hsign, hexp, hfrac]
  rw [if_pos trivial, if_neg (Nat.ne_of_gt hpos), hquiet, exponents_top.1]

/-- The NaN that comes back is quiet. -/
theorem narrow_nan (hpos : 0 < f) (hf : f < 2 ^ 23) :
    doubleToFloat (floatToDouble
        (UInt32.ofNat (s * 2 ^ 31 + 0xff * 2 ^ 23 + f)))
      = UInt32.ofNat (s * 2 ^ 31 + 0xff * 2 ^ 23 + (2 ^ 22 ||| f)) := by
  have hquiet : (2 ^ 22 ||| f) < 2 ^ 23 := Nat.or_lt_two_pow (by omega) hf
  have hsome : f ≤ (2 ^ 22 ||| f) := Nat.right_le_or
  have hfield : (2 ^ 22 ||| f) * 2 ^ 29 < 2 ^ 52 := by omega
  have hnonzero : (2 ^ 22 ||| f) * 2 ^ 29 ≠ 0 := by omega
  have hback : (2 ^ 22 ||| f) * 2 ^ 29 / 2 ^ 29 = (2 ^ 22 ||| f) :=
    Nat.mul_div_cancel _ (Nat.two_pow_pos 29)
  have hagain : 0x400000 ||| (2 ^ 22 ||| f) = 2 ^ 22 ||| f := by
    rw [← Nat.or_assoc]
    congr 1
  obtain ⟨hsign, hexp, hfrac⟩ :=
    double_parts hs (by omega : 0x7ff < 2 ^ 11) hfield
  rw [widen_nan hs hpos hf]
  unfold doubleToFloat
  simp only [hsign, hexp, hfrac]
  rw [if_pos trivial, if_neg hnonzero, hback, hagain, exponents_top.2]

end

-- ==================================================================== a trip

/-- A float: its bits are no NaN's. -/
def IsNumber (b : UInt32) : Prop :=
  b.toNat / 2 ^ 23 % 2 ^ 8 = 0xff → b.toNat % 2 ^ 23 = 0

/-- A number comes back. -/
theorem narrow_widen {b : UInt32} (hb : IsNumber b) :
    doubleToFloat (floatToDouble b) = b := by
  obtain ⟨s, e, f, hs, he, hf, rfl⟩ := exists_parts b
  obtain ⟨-, hexp, hfrac⟩ := float_parts hs he hf
  unfold IsNumber at hb
  rw [hexp, hfrac] at hb
  rcases Nat.eq_zero_or_pos e with rfl | hpos
  · rcases Nat.eq_zero_or_pos f with rfl | hsome
    · exact narrow_zero hs
    · exact narrow_subnormal hs hsome hf
  · rcases Nat.lt_or_ge e 0xff with hlt | hge
    · exact narrow_normal hs hpos hlt hf
    · have htop : e = 0xff := by omega
      subst htop
      rw [hb rfl]
      exact narrow_infinity hs

/-- The double of what comes back is the same double. -/
theorem widened_back (b : UInt32) :
    floatToDouble (doubleToFloat (floatToDouble b)) = floatToDouble b := by
  by_cases hb : IsNumber b
  · rw [narrow_widen hb]
  obtain ⟨s, e, f, hs, he, hf, rfl⟩ := exists_parts b
  obtain ⟨-, hexp, hfrac⟩ := float_parts hs he hf
  unfold IsNumber at hb
  rw [hexp, hfrac, Classical.not_imp] at hb
  obtain ⟨rfl, hsome⟩ := hb
  have hpos : 0 < f := Nat.pos_of_ne_zero hsome
  have hquiet : (2 ^ 22 ||| f) < 2 ^ 23 := Nat.or_lt_two_pow (by omega) hf
  have hpos' : 0 < (2 ^ 22 ||| f) := Nat.lt_of_lt_of_le hpos Nat.right_le_or
  have hagain : 2 ^ 22 ||| (2 ^ 22 ||| f) = 2 ^ 22 ||| f := by
    rw [← Nat.or_assoc, Nat.or_self]
  rw [narrow_nan hs hpos hf, widen_nan hs hpos' hquiet, hagain,
    widen_nan hs hpos hf]

end Lwpb.Python
