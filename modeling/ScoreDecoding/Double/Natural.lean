import ScoreDecoding.Double.Zero

/-!
# Natural numbers as doubles

A natural number of 64 bits has a double near it. The number is rounded, and it may be multiplied by one after that, so
it is followed how far rounding raises an exponent.

- `mul_one`: multiplying a double by one changes nothing;
- `isInf_ofNat`: the double of a natural number of 64 bits is not infinite.
-/

namespace ScoreDecoding.Double

open Float.Model Float.Model.UnpackedFloat

variable {m : Nat} {e : Int}

/-! ## The product with one -/

theorem mul_unpacked_one {x : UnpackedFloat} (hx : Canonical x) :
    UnpackedFloat.mul .binary64 x (.finite .positive (2 ^ 52) (-52) (by decide)) = x := by
  cases hx with
  | infinity sign => cases sign <;> rfl
  | notANumber => rfl
  | zero sign => cases sign <;> rfl
  | @finite sign m e hm he =>
    have hsign : sign * .positive = sign := by cases sign <;> rfl
    show roundWithAccuracy .binary64 (sign * .positive) (m * 2 ^ 52) (e + -52) .exact = _
    rw [hsign, Nat.mul_comm]
    exact roundWithAccuracy_of_shift sign hm he (shiftToTargetExponent_two_pow_mul hm he 52)

/-- **Multiplying by one changes nothing.** -/
theorem mul_one (x : Float) : x * 1 = x := by
  have hmul : x * 1 = ⟨pack (UnpackedFloat.mul .binary64 x.toModel.unpack (1 : Float).toModel.unpack)⟩ := rfl
  rw [hmul, unpack_one, Float.Model.unpack, mul_unpacked_one (canonical_unpack x.toModel.toBits.toBitVec)]
  obtain ⟨⟨bits, hvalid⟩⟩ := x
  simp [Float.Model.pack, pack_unpack_of_valid hvalid]

/-! ## How far rounding raises an exponent -/

theorem exponent_shiftToTargetExponent_le (he : -1074 ≤ e) :
    -1074 ≤ (shiftToTargetExponent .binary64 m e .exact).2 ∧
      (shiftToTargetExponent .binary64 m e .exact).2 ≤ e + m.log2 := by
  have hexponent : (shiftToTargetExponent .binary64 m e .exact).2 =
      e + (Format.binary64.targetExponent (totalExponent m e) - e).toNat := rfl
  rw [hexponent, targetExponent_eq, totalExponent]
  omega

theorem roundedMantissa_le (em : ExtendedMantissa) : em.roundedMantissa ≤ em.mantissa + 1 := by
  obtain ⟨m, r, s⟩ := em
  cases r
  · cases s <;> exact Nat.le_add_right m _
  · cases s
    · show m + m % 2 ≤ m + 1
      omega
    · exact Nat.le_refl _

theorem isInf_unpack {bits : BitVec Format.binary64.numBits} (h : unpackExponent bits ≠ -1#_) :
    (UnpackedFloat.unpack .binary64 bits).isInf = false := by
  unfold UnpackedFloat.unpack
  simp only [if_neg h]
  split
  · split <;> rfl
  · rfl

/-- A finite value whose exponent is not too large is not packed to an infinity. -/
theorem isInf_pack_finite (sign : Sign) (hm : 0 < m) (he : e < 971) :
    (pack (.finite sign m e hm)).isInf = false := by
  refine isInf_unpack ?_
  show unpackExponent (UnpackedFloat.pack .binary64 (.finite sign m e hm)) ≠ _
  have hones : (-1#_ : BitVec Format.binary64.exponentBits).toNat = 2047 := rfl
  simp only [UnpackedFloat.pack]
  have hfits : ¬ 2 ^ Format.binary64.exponentBits ≤
      (e + Format.binary64.exponentBias + Format.binary64.mantissaBitsWithoutImplicit).toNat + 1 := by
    show ¬ 2048 ≤ (e + 1023 + 52).toNat + 1
    omega
  rw [if_neg hfits]
  intro heq
  split at heq
  · rw [unpackExponent_packComponents] at heq
    have hvalue := congrArg BitVec.toNat heq
    rw [BitVec.toNat_ofNat, hones] at hvalue
    change (e + 1023 + 52).toNat % 2048 = 2047 at hvalue
    omega
  · rw [unpackExponent_packComponents] at heq
    exact absurd heq (by decide)

theorem log2_le_of_lt {n k : Nat} (h : n < 2 ^ (k + 1)) : n.log2 ≤ k := by
  by_cases hn : n = 0
  · rw [hn]
    exact Nat.zero_le k
  · exact Nat.le_of_lt_succ ((Nat.log2_lt hn).2 h)

/-- What is rounded is not infinite if its exponent is not too large. -/
theorem isInf_pack_roundWithAccuracy (sign : Sign) (he : -1074 ≤ e) (hsmall : e + 2 * m.log2 < 970) :
    (pack (roundWithAccuracy .binary64 sign m e .exact)).isInf = false := by
  obtain ⟨hlow, hhigh⟩ := exponent_shiftToTargetExponent_le (m := m) he
  have hmantissa : (shiftToTargetExponent .binary64 m e .exact).1.roundedMantissa ≤ m + 1 := by
    refine (roundedMantissa_le _).trans (Nat.succ_le_succ ?_)
    exact (mantissa_shift _ _).trans_le (Nat.div_le_self _ _)
  have hlog : (shiftToTargetExponent .binary64 m e .exact).1.roundedMantissa.log2 ≤ m.log2 + 1 := by
    have hm : m < 2 ^ (m.log2 + 1) := Nat.lt_log2_self
    refine log2_le_of_lt (hmantissa.trans_lt ?_)
    rw [Nat.pow_succ]
    omega
  obtain ⟨-, hexponent⟩ := exponent_shiftToTargetExponent_le
    (m := (shiftToTargetExponent .binary64 m e .exact).1.roundedMantissa) hlow
  unfold roundWithAccuracy
  dsimp only
  split
  · cases sign <;> rfl
  · exact isInf_pack_finite sign _ (by omega)

/-! ## Natural numbers -/

theorem log2_shiftLeft_le {n : Nat} (hn : n < UInt64.size) (k : Nat) : (n <<< k).log2 ≤ 63 + k := by
  refine log2_le_of_lt ?_
  rw [Nat.shiftLeft_eq, Nat.add_right_comm, Nat.pow_add]
  exact Nat.mul_lt_mul_of_pos_right hn (Nat.two_pow_pos k)

theorem isInf_toFloat (n : UInt64) : n.toFloat.isInf = false := by
  show (pack (UnpackedFloat.normalize .binary64 n.toNat 0 .positive)).isInf = false
  unfold UnpackedFloat.normalize
  split
  · rename_i h
    exact absurd (Int.compare_eq_lt.1 h) (by omega)
  · rfl
  · -- the mantissa gets at most 53 bits more
    show (pack (roundWithAccuracy .binary64 .positive (n.toNat <<< (0 - Format.binary64.targetExponent
      (totalExponent n.toNat 0)).toNat) (0 - (0 - Format.binary64.targetExponent
        (totalExponent n.toNat 0)).toNat) .exact)).isInf = false
    have hshift : (0 - Format.binary64.targetExponent (totalExponent n.toNat 0)).toNat ≤ 52 := by
      rw [targetExponent_eq, totalExponent]
      omega
    generalize (0 - Format.binary64.targetExponent (totalExponent n.toNat 0)).toNat = k at hshift ⊢
    have hlog := log2_shiftLeft_le n.toNat_lt k
    exact isInf_pack_roundWithAccuracy _ (by omega) (by omega)

theorem ofScientific_zero {n : Nat} (hn : n ≠ 0) :
    UnpackedFloat.ofScientific .binary64 n 0 = roundWithAccuracy .binary64 .positive
      (n <<< Format.binary64.mantissaBits) (-Format.binary64.mantissaBits) .exact := by
  have hlarge : ¬ (0 : Int) > 2 ^ Format.binary64.exponentBits := by decide
  have hsmall : ¬ (0 : Int) < -((2 ^ Format.binary64.exponentBits : Int) + n.log2) := by
    have hpos : (0 : Int) < 2 ^ Format.binary64.exponentBits := by decide
    omega
  have hsign : Sign.positive * Sign.positive = .positive := rfl
  unfold UnpackedFloat.ofScientific
  rw [dif_neg hn, if_neg hlarge, if_neg hsmall, if_pos (Int.le_refl 0)]
  simp only [UnpackedFloat.mul, Int.toNat_zero, Nat.pow_zero, Nat.mul_one, Int.add_zero, hsign]

/-- The double of a natural number of 64 bits is not infinite. -/
theorem isInf_ofNat {n : Nat} (hn : n < UInt64.size) : (Float.ofNat n).isInf = false := by
  show (Float.ofScientific n false 0).isInf = false
  unfold Float.ofScientific
  split
  · show (n.toUInt64.toFloat * 1).isInf = false
    rw [mul_one]
    exact isInf_toFloat _
  · rename_i hlarge
    have hzero : n ≠ 0 := by
      rintro rfl
      exact hlarge (by decide)
    have hlog := log2_shiftLeft_le hn Format.binary64.mantissaBits
    have hbits : Format.binary64.mantissaBits = 53 := rfl
    show (pack (UnpackedFloat.ofScientific .binary64 n 0)).isInf = false
    rw [ofScientific_zero hzero]
    exact isInf_pack_roundWithAccuracy _ (by omega) (by omega)

end ScoreDecoding.Double
