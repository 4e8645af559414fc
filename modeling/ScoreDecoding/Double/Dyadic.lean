import ScoreDecoding.Double.Whole

/-!
# Integers over a power of two

An integer divided by a power of two is a double with the same mantissa and a smaller exponent: nothing is rounded. Such
doubles are compared by their exponents first and then by their mantissas, and since all mantissas have 53 bits, this is
the order of the numbers.

- `Denotes` says which number an unpacked double is, and `HasValue` says so of a double;
- `hasValue_div_two_pow`: dividing an integer by a power of two is exact;
- `HasValue.lt_iff`: doubles are compared as their numbers are.
-/

namespace ScoreDecoding.Double

open Float.Model Float.Model.UnpackedFloat

variable {m n : Nat} {e f : Int} {u v : UnpackedFloat} {p q : ℚ} {x y : Float}

/-- An unpacked double is a number: zero, or a mantissa of 53 bits with an exponent. -/
inductive Denotes : UnpackedFloat → ℚ → Prop
  | zero (sign : Sign) : Denotes (.zero sign) 0
  | finite (sign : Sign) {m : Nat} {e : Int} (hpos : 0 < m) (hlog : m.log2 = 52) :
      Denotes (.finite sign m e hpos) ((sign.apply m : Int) * 2 ^ e)

/-- A double is a number that it can hold with a mantissa of 53 bits. -/
def HasValue (x : Float) (q : ℚ) : Prop := Denotes x.toModel.unpack q

theorem cast_apply_negative (n : Nat) : ((Sign.negative.apply n : Int) : ℚ) = -n := by
  show ((-(n : Int) : Int) : ℚ) = _
  rw [Int.cast_neg, Int.cast_natCast]

/-! ## The order -/

theorem bounds_of_log2 (hm : m.log2 = 52) : (2 : ℚ) ^ (52 : Int) ≤ m ∧ (m : ℚ) < 2 ^ (53 : Int) := by
  have hne : m ≠ 0 := by
    rintro rfl
    cases hm
  have hlow : 2 ^ m.log2 ≤ m := Nat.log2_self_le hne
  have hhigh : m < 2 ^ (m.log2 + 1) := Nat.lt_log2_self
  rw [hm] at hlow hhigh
  exact ⟨by exact_mod_cast hlow, by exact_mod_cast hhigh⟩

/-- A mantissa with a smaller exponent is smaller, because it has no more bits. -/
theorem mul_two_pow_lt_of_lt (hm : m.log2 = 52) (hn : n.log2 = 52) (hef : e < f) : (m : ℚ) * 2 ^ e < n * 2 ^ f := by
  have hle : (2 : ℚ) ^ (53 + e) ≤ 2 ^ (52 + f) := zpow_le_zpow_right₀ one_le_two (by omega)
  calc (m : ℚ) * 2 ^ e < 2 ^ (53 : Int) * 2 ^ e := mul_lt_mul_of_pos_right (bounds_of_log2 hm).2 (by positivity)
    _ = 2 ^ (53 + e) := (zpow_add₀ two_ne_zero 53 e).symm
    _ ≤ 2 ^ (52 + f) := hle
    _ = 2 ^ (52 : Int) * 2 ^ f := zpow_add₀ two_ne_zero 52 f
    _ ≤ n * 2 ^ f := mul_le_mul_of_nonneg_right (bounds_of_log2 hn).1 (by positivity)

/-- Mantissas of 53 bits are ordered by their exponents first. -/
theorem mul_two_pow_lt_iff (hm : m.log2 = 52) (hn : n.log2 = 52) :
    (m : ℚ) * 2 ^ e < n * 2 ^ f ↔ e < f ∨ e = f ∧ m < n := by
  rcases lt_trichotomy e f with hlt | rfl | hlt
  · exact iff_of_true (mul_two_pow_lt_of_lt hm hn hlt) (.inl hlt)
  · have hpow : (0 : ℚ) < 2 ^ e := by positivity
    rw [mul_lt_mul_iff_of_pos_right hpow, Nat.cast_lt]
    simp
  · exact iff_of_false (mul_two_pow_lt_of_lt hn hm hlt).not_gt (by omega)

theorem compare_then_eq_lt_iff : (compare e f).then (compare m n) = .lt ↔ e < f ∨ e = f ∧ m < n := by
  rw [Ordering.then_eq_lt, Int.compare_eq_lt, Int.compare_eq_eq, Nat.compare_eq_lt]

theorem compare_then_eq_gt_iff : (compare e f).then (compare m n) = .gt ↔ f < e ∨ f = e ∧ n < m := by
  rw [Ordering.then_eq_gt, Int.compare_eq_gt, Int.compare_eq_eq, Nat.compare_eq_gt, eq_comm]

/-- Unpacked doubles are compared as their numbers are. -/
theorem Denotes.lt_iff (hu : Denotes u p) (hv : Denotes v q) : UnpackedFloat.lt u v = true ↔ p < q := by
  have hneg {m : Nat} {e : Int} : ((Sign.negative.apply m : Int) : ℚ) * 2 ^ e = -(m * 2 ^ e) := by
    rw [cast_apply_negative, neg_mul]
  have hpos {m : Nat} {e : Int} : ((Sign.positive.apply m : Int) : ℚ) * 2 ^ e = m * 2 ^ e := rfl
  have hlt {m : Nat} {e : Int} (hm : 0 < m) : (0 : ℚ) < m * 2 ^ e := by positivity
  rw [UnpackedFloat.lt, beq_iff_eq]
  cases hu with
  | zero sign =>
    cases hv with
    | zero sign' => exact iff_of_false (by rintro ⟨⟩) le_rfl.not_gt
    | finite sign' hn _ =>
      cases sign' with
      | negative => exact iff_of_false (by rintro ⟨⟩) (by rw [hneg]; exact (neg_neg_of_pos (hlt hn)).not_gt)
      | positive => exact iff_of_true rfl (by rw [hpos]; exact hlt hn)
  | @finite sign m e hm hmlog =>
    cases hv with
    | zero sign' =>
      cases sign with
      | negative => exact iff_of_true rfl (by rw [hneg]; exact neg_neg_of_pos (hlt hm))
      | positive => exact iff_of_false (by rintro ⟨⟩) (by rw [hpos]; exact (hlt hm).not_gt)
    | @finite sign' n f hn hnlog =>
      cases sign <;> cases sign'
      · -- below zero the order is turned round
        rw [hneg, hneg, neg_lt_neg_iff, mul_two_pow_lt_iff hnlog hmlog, ← compare_then_eq_gt_iff, ← Ordering.swap_eq_lt]
        exact Option.some_inj
      · exact iff_of_true rfl (by rw [hneg, hpos]; exact (neg_neg_of_pos (hlt hm)).trans (hlt hn))
      · exact iff_of_false (by rintro ⟨⟩) (by rw [hneg, hpos]; exact ((neg_neg_of_pos (hlt hn)).trans (hlt hm)).not_gt)
      · rw [hpos, hpos, mul_two_pow_lt_iff hmlog hnlog, ← compare_then_eq_lt_iff]
        exact Option.some_inj

/-- **Doubles are compared as their numbers are.** -/
theorem HasValue.lt_iff (hx : HasValue x p) (hy : HasValue y q) : x < y ↔ p < q := by
  have hunpack : x < y ↔ UnpackedFloat.lt x.toModel.unpack y.toModel.unpack = true := by
    show decide (_ = true) = true ↔ _
    rw [decide_eq_true_iff]
    rfl
  rw [hunpack]
  exact Denotes.lt_iff hx hy

/-! ## Dividing by a power of two -/

theorem places_two_pow {k : Nat} (hk : k ≤ 53) : Places (2 ^ k) (2 ^ 52) (k - 52) := by
  refine ⟨by decide, ?_, Nat.pow_le_pow_right Nat.two_pos hk⟩
  rw [zpow_sub₀ two_ne_zero]
  push_cast
  rw [zpow_natCast]
  field_simp

/-- The quotient is formed with one bit more than the mantissa has. -/
theorem divCore_two_pow {k : Nat} (h : Places n m e) (hk : k ≤ 53) :
    divCore .binary64 m e (2 ^ 52) (k - 52) = (2 * m, e - k - 1, .exact) := by
  have hbounds := h.bounds
  have hlog : Nat.log2 (2 ^ 52) = 52 := by decide
  have hexponent : min (e - (k - 52)) (Format.binary64.targetExponent (totalExponent m e -
      totalExponent (2 ^ 52) (k - 52))) = e - k - 1 := by
    rw [Double.targetExponent_eq, totalExponent, totalExponent, h.log2_eq, hlog]
    omega
  have hamount : (e - (k - 52) - (e - k - 1)).toNat = 53 := by omega
  have hproduct : m <<< 53 = 2 ^ 52 * (2 * m) := by
    rw [Nat.shiftLeft_eq]
    ring
  simp only [divCore, hexponent, hamount, hproduct, Nat.mul_div_cancel_left _ (Nat.two_pow_pos 52), Nat.mul_mod_right]
  rfl

/-- The exponent gets smaller, and the mantissa stays. -/
theorem div_two_pow_eq {k : Nat} {sign : Sign} (h : Places n m e) (hk : k ≤ 53) (hpos : 0 < m) :
    UnpackedFloat.div .binary64 (.finite sign m e hpos) (.finite .positive (2 ^ 52) (k - 52) (by decide)) =
      .finite sign m (e - k) hpos := by
  have hbounds := h.bounds
  have hsign : sign / .positive = sign := by cases sign <;> rfl
  have htarget : Format.binary64.targetExponent (totalExponent m (e - k)) = e - k := by
    rw [Double.targetExponent_eq, totalExponent, h.log2_eq]
    omega
  have hshift := shiftToTargetExponent_two_pow_mul hpos htarget 1
  rw [Nat.pow_one, Nat.cast_one] at hshift
  unfold UnpackedFloat.div
  dsimp only
  rw [divCore_two_pow h hk, hsign]
  exact roundWithAccuracy_of_shift sign hpos htarget hshift

/-- A power of two has one place. -/
theorem Whole.eq_two_pow {k : Nat} (hv : Whole v (2 ^ k : Nat)) (hk : k ≤ 53) :
    v = .finite .positive (2 ^ 52) (k - 52) (by decide) := by
  have hpow : 0 < 2 ^ k := Nat.two_pow_pos k
  generalize hl : ((2 ^ k : Nat) : Int) = l at hv
  cases hv with
  | zero => omega
  | @finite sign n m e hpos hplaces =>
    cases sign with
    | negative =>
      change ((2 ^ k : Nat) : Int) = -(n : Int) at hl
      omega
    | positive =>
      obtain rfl : 2 ^ k = n := Int.ofNat.inj hl
      obtain ⟨rfl, rfl⟩ := hplaces.unique (places_two_pow hk)
      rfl

/-- **Dividing an integer by a power of two is exact.** -/
theorem hasValue_div_two_pow {j : Int} {k : Nat} (hx : IsInteger x j) (hy : IsInteger y (2 ^ k : Nat)) :
    HasValue (x / y) (j / 2 ^ k) := by
  have hk : k ≤ 53 := (Nat.pow_le_pow_iff_right (by decide)).1 hy.natAbs_le
  show Denotes (pack (UnpackedFloat.div .binary64 x.toModel.unpack y.toModel.unpack)).unpack _
  rw [Whole.eq_two_pow hy hk]
  unfold IsInteger at hx
  generalize x.toModel.unpack = u at hx
  cases hx with
  | zero sign =>
    have hzero : UnpackedFloat.div .binary64 (.zero sign) (.finite .positive (2 ^ 52) (k - 52) (by decide)) =
        .zero (sign / .positive) := rfl
    rw [Int.cast_zero, zero_div, hzero, (Whole.zero _).unpack_pack]
    exact .zero _
  | @finite sign n m e hpos hplaces =>
    have hbounds := hplaces.bounds
    have hvalue : ((sign.apply n : Int) : ℚ) / 2 ^ k = (sign.apply m : Int) * 2 ^ (e - k) := by
      rw [zpow_sub₀ two_ne_zero, zpow_natCast, ← mul_div_assoc]
      refine congrArg (· / 2 ^ k) ?_
      cases sign with
      | negative =>
        rw [cast_apply_negative, cast_apply_negative, neg_mul, hplaces.value]
      | positive => exact hplaces.value.symm
    rw [div_two_pow_eq hplaces hk, unpack_pack_of_log2 hplaces.log2_eq (by omega) (by omega), hvalue]
    exact .finite sign hpos hplaces.log2_eq

end ScoreDecoding.Double
