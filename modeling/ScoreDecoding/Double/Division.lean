import Mathlib

/-!
# Division by one

Without a temperature logits are divided by one, which changes none of them. Doubles have a model in which a finite
value is a mantissa with an exponent, and a quotient is rounded in two steps, so this has to be followed through.

- `Canonical` are the values that a double unpacks to (`canonical_unpack`);
- `div_one`: dividing a double by one changes nothing.
-/

namespace ScoreDecoding.Double

open Float.Model Float.Model.UnpackedFloat

/-- Unpacked doubles; the exponent of a finite one is that which the format asks for. -/
inductive Canonical : UnpackedFloat → Prop
  | infinity (sign : Sign) : Canonical (.infinity sign)
  | notANumber : Canonical .notANumber
  | zero (sign : Sign) : Canonical (.zero sign)
  | finite (sign : Sign) {mantissa : Nat} {exponent : Int} (hpos : 0 < mantissa) :
      Format.binary64.targetExponent (totalExponent mantissa exponent) = exponent →
      Canonical (.finite sign mantissa exponent hpos)

variable {m n : Nat} {e f : Int}

theorem targetExponent_eq (e : Int) : Format.binary64.targetExponent e = max (e - 53) (-1074) := rfl

/-- The leading one of a mantissa is not stored. -/
theorem toNat_one_append (mantissa : BitVec 52) : (1#1 ++ mantissa).toNat = 2 ^ 52 + mantissa.toNat := by
  rw [BitVec.toNat_append]
  exact (Nat.two_pow_add_eq_or_of_lt mantissa.isLt 1).symm

/-- A double unpacks to a canonical value: a subnormal one has the least exponent, another one 53 bits. -/
theorem canonical_unpack (bits : BitVec Format.binary64.numBits) : Canonical (unpack .binary64 bits) := by
  have hbias : (Format.binary64.exponentBias : Int) + Format.binary64.mantissaBitsWithoutImplicit = 1075 := rfl
  fun_cases unpack Format.binary64 bits with
  | case1 => exact .infinity _
  | case2 => exact .notANumber
  | case3 => exact .zero _
  | case4 mantissa exponent e _ s _ hzero hmantissa =>
    have hlt : mantissa.toNat < 2 ^ 52 := mantissa.isLt
    have hne : mantissa.toNat ≠ 0 := fun h => hmantissa (BitVec.eq_of_toNat_eq h)
    have hlog := (Nat.log2_lt hne).2 hlt
    have he : e = -1075 := by
      show (exponent.toNat : Int) - _ = _
      rw [hzero, hbias]
      rfl
    refine .finite _ _ ?_
    rw [targetExponent_eq, totalExponent]
    omega
  | case5 mantissa exponent e _ s _ hexponent =>
    have hlt : mantissa.toNat < 2 ^ 52 := mantissa.isLt
    have hone : (1#1 ++ mantissa).toNat = 2 ^ 52 + mantissa.toNat := toNat_one_append mantissa
    have hlog : (1#1 ++ mantissa).toNat.log2 = 52 := by
      rw [hone, Nat.log2_eq_iff (by omega)]
      omega
    have hne : exponent.toNat ≠ 0 := fun h => hexponent (BitVec.eq_of_toNat_eq h)
    have he : e = exponent.toNat - 1075 := by
      show (exponent.toNat : Int) - _ = _
      rw [hbias]
    refine .finite _ _ ?_
    rw [targetExponent_eq, totalExponent, hlog]
    omega

/-! ## Rounding -/

/-- Bits more in the mantissa are as much less in the exponent. -/
theorem totalExponent_two_pow_mul (hm : 0 < m) (e : Int) (k : Nat) :
    totalExponent (2 ^ k * m) (e - k) = totalExponent m e := by
  have hlog : (2 ^ k * m).log2 = m.log2 + k := by
    rw [Nat.log2_eq_iff (by positivity), Nat.pow_add, Nat.add_right_comm, Nat.pow_add, Nat.mul_comm (2 ^ k) m]
    exact ⟨Nat.mul_le_mul_right _ (Nat.log2_self_le (by omega)),
      Nat.mul_lt_mul_of_pos_right Nat.lt_log2_self (by positivity)⟩
  rw [totalExponent, totalExponent, hlog]
  omega

theorem shiftToTargetExponent_of_canonical (he : Format.binary64.targetExponent (totalExponent m e) = e) :
    shiftToTargetExponent .binary64 m e .exact = (⟨m, false, false⟩, e) := by
  rw [shiftToTargetExponent, shiftToExponent, he, Int.sub_self, Int.toNat_zero]
  exact congrArg (_, ·) (Int.add_zero e)

theorem shiftRight_two_pow_mul (m k : Nat) :
    (⟨2 ^ k * m, false, false⟩ : ExtendedMantissa) >>> k = ⟨m, false, false⟩ := by
  induction k generalizing m with
  | zero =>
    rw [Nat.pow_zero, Nat.one_mul]
    rfl
  | succ k ih =>
    show ((⟨2 ^ (k + 1) * m, false, false⟩ : ExtendedMantissa) >>> k).shiftRightOne = _
    rw [Nat.pow_succ, Nat.mul_assoc, ih]
    show ExtendedMantissa.mk (2 * m / 2) (2 * m % 2 != 0) false = _
    rw [Nat.mul_div_cancel_left m Nat.two_pos, Nat.mul_mod_right]
    rfl

/-- Bits that are too much and not set are shifted out. -/
theorem shiftToTargetExponent_two_pow_mul (hm : 0 < m)
    (he : Format.binary64.targetExponent (totalExponent m e) = e) (k : Nat) :
    shiftToTargetExponent .binary64 (2 ^ k * m) (e - k) .exact = (⟨m, false, false⟩, e) := by
  have hamount : (e - (e - k)).toNat = k := by omega
  have hshift : (ExtendedMantissa.ofMantissaAndAccuracy (2 ^ k * m) .exact) >>> k = ⟨m, false, false⟩ :=
    shiftRight_two_pow_mul m k
  rw [shiftToTargetExponent, totalExponent_two_pow_mul hm, he, shiftToExponent, hamount, hshift]
  exact congrArg (_, ·) (Int.sub_add_cancel e k)

/-- What is shifted to a canonical value without a rest is rounded to it. -/
theorem roundWithAccuracy_of_shift (sign : Sign) (hm : 0 < m)
    (he : Format.binary64.targetExponent (totalExponent m e) = e)
    (h : shiftToTargetExponent .binary64 n f .exact = (⟨m, false, false⟩, e)) :
    roundWithAccuracy .binary64 sign n f .exact = .finite sign m e hm := by
  have hround : (⟨m, false, false⟩ : ExtendedMantissa).roundedMantissa = m := rfl
  unfold roundWithAccuracy
  simp only [h, hround, shiftToTargetExponent_of_canonical he]
  exact dif_neg (Nat.ne_of_gt hm)

/-! ## The quotient -/

theorem unpack_one : (1 : Float).toModel.unpack = .finite .positive (2 ^ 52) (-52) (by decide) := rfl

theorem div_unpacked_one {x : UnpackedFloat} (hx : Canonical x) :
    UnpackedFloat.div .binary64 x (.finite .positive (2 ^ 52) (-52) (by decide)) = x := by
  cases hx with
  | infinity sign => cases sign <;> rfl
  | notANumber => rfl
  | zero sign => cases sign <;> rfl
  | @finite sign m e hm he =>
    have hsign : sign / .positive = sign := by cases sign <;> rfl
    have hone : totalExponent (2 ^ 52) (-52) = 1 := by decide
    have hmax := he
    rw [targetExponent_eq] at hmax
    -- the quotient is computed with one bit more, unless the exponent is the least one
    have hshort : min (e - -52) (Format.binary64.targetExponent (totalExponent m e - 1)) = e - 1 ∨
        min (e - -52) (Format.binary64.targetExponent (totalExponent m e - 1)) = e := by
      rw [targetExponent_eq]
      omega
    have hquotient : ∀ k, (m <<< (52 + k)) / 2 ^ 52 = 2 ^ k * m ∧ (m <<< (52 + k)) % 2 ^ 52 = 0 := by
      intro k
      have hshift : m <<< (52 + k) = 2 ^ 52 * (2 ^ k * m) := by
        rw [Nat.shiftLeft_eq, Nat.pow_add]
        ring
      rw [hshift]
      exact ⟨Nat.mul_div_cancel_left _ (by decide), Nat.mul_mod_right _ _⟩
    unfold UnpackedFloat.div
    dsimp only [divCore]
    rw [hone, hsign]
    rcases hshort with h | h
    · have hamount : (e - -52 - (e - 1)).toNat = 52 + 1 := by omega
      rw [h, hamount, (hquotient 1).1, (hquotient 1).2]
      exact roundWithAccuracy_of_shift sign hm he (shiftToTargetExponent_two_pow_mul hm he 1)
    · have hamount : (e - -52 - e).toNat = 52 + 0 := by omega
      rw [h, hamount, (hquotient 0).1, (hquotient 0).2, Nat.pow_zero, Nat.one_mul]
      exact roundWithAccuracy_of_shift sign hm he (shiftToTargetExponent_of_canonical he)

/-- **Dividing by one changes nothing.** -/
theorem div_one (x : Float) : x / 1 = x := by
  have hdiv : x / 1 = ⟨pack (UnpackedFloat.div .binary64 x.toModel.unpack (1 : Float).toModel.unpack)⟩ := rfl
  rw [hdiv, unpack_one, Float.Model.unpack, div_unpacked_one (canonical_unpack x.toModel.toBits.toBitVec)]
  obtain ⟨⟨bits, hvalid⟩⟩ := x
  simp [Float.Model.pack, pack_unpack_of_valid hvalid]

end ScoreDecoding.Double
