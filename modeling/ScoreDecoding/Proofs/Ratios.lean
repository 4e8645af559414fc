import ScoreDecoding.Double.Whole
import ScoreDecoding.Ratio

/-!
# Sums of ratios

Ratios are added and reduced on doubles. As long as the integers on the way stay within `2 ^ 53` nothing is rounded, and
what comes out is the number that the two ratios add up to, in lowest terms. The least common multiple of the
denominators may be negative, and zero may be the negative zero, but neither is seen in the result.

- `toRat` is the number that a ratio stands for, and `Lowest` ratios are known from it (`Lowest.eq_of_toRat`);
- `lowest_reduced`: what is reduced is in lowest terms;
- `SumInRange` says that a sum is formed without rounding; `exact_of_inRange` is what is then known of it.
-/

namespace ScoreDecoding.Ratio

open Double

variable {r s : Ratio} {x y : Float} {n d : Int}

/-! ## Numbers and their ratios -/

/-- The number that a ratio stands for. -/
def toRat (r : Ratio) : ℚ := r.numerator.toInt / r.denominator.toInt

/-- The ratio is in lowest terms, with a positive denominator. -/
structure Lowest (r : Ratio) : Prop where
  denominator_pos : 0 < r.denominator.toInt
  gcd_eq : Int.gcd r.numerator.toInt r.denominator.toInt = 1

/-- A number has one ratio in lowest terms. -/
theorem Lowest.eq_of_toRat (hr : r.Lowest) (hs : s.Lowest) (h : r.toRat = s.toRat) : r = s := by
  obtain ⟨hn, hd⟩ := Rat.div_int_inj hr.denominator_pos hs.denominator_pos hr.gcd_eq hs.gcd_eq h
  have hnumerator := Int64.toInt_inj.1 hn
  have hdenominator := Int64.toInt_inj.1 hd
  cases r
  cases s
  cases hnumerator
  cases hdenominator
  rfl

theorem lowest_zero : zero.Lowest := ⟨by decide, by decide⟩

theorem toRat_zero : zero.toRat = 0 := zero_div _

/-! ## Reducing -/

/-- Both parts are divided by their greatest common divisor. -/
theorem isInteger_divisor (hx : IsInteger x n) (hy : IsInteger y d) (hd : 0 < d) :
    IsInteger (if x == 0 then y else Double.gcd x.abs y) (Int.gcd n d) := by
  split
  · rename_i hzero
    rw [(beq_zero_iff hx).1 hzero, Int.gcd_zero_left, Int.natAbs_of_nonneg hd.le]
    exact hy
  · have hgcd : signedGcd |n| d = Int.gcd n d := by
      rw [Int.eq_natAbs_of_nonneg (signedGcd_nonneg (abs_nonneg n) hd.le), natAbs_signedGcd, Int.gcd_def, Int.gcd_def,
        Int.natAbs_abs]
    rw [← hgcd]
    exact isInteger_gcd hx.abs hy

/-- Dividing them leaves a ratio in lowest terms. -/
theorem lowest_cancel (hx : IsInteger x n) (hy : IsInteger y d) (hd : 0 < d) {g : Float}
    (hg : IsInteger g (Int.gcd n d)) :
    Lowest ⟨toInt64 (x / g), toInt64 (y / g)⟩ ∧ toRat ⟨toInt64 (x / g), toInt64 (y / g)⟩ = n / d := by
  have hpos : 0 < Int.gcd n d := Int.gcd_pos_of_ne_zero_right n hd.ne'
  have hne : (Int.gcd n d : Int) ≠ 0 := by omega
  have hn : n / Int.gcd n d * Int.gcd n d = n := Int.ediv_mul_cancel (Int.gcd_dvd_left n d)
  have hd' : d / Int.gcd n d * Int.gcd n d = d := Int.ediv_mul_cancel (Int.gcd_dvd_right n d)
  have hnumerator : (toInt64 (x / g)).toInt = n / Int.gcd n d := toInt_toInt64 ((hn.symm ▸ hx).div hg hne)
  have hdenominator : (toInt64 (y / g)).toInt = d / Int.gcd n d := toInt_toInt64 ((hd'.symm ▸ hy).div hg hne)
  refine ⟨⟨?_, ?_⟩, ?_⟩
  · rw [hdenominator]
    exact Int.ediv_pos_of_pos_of_dvd hd (Int.natCast_nonneg _) (Int.gcd_dvd_right n d)
  · rw [hnumerator, hdenominator]
    exact Int.gcd_ediv_gcd_ediv_gcd hpos
  · have hcast : ((Int.gcd n d : Int) : ℚ) ≠ 0 := by exact_mod_cast hne
    show ((toInt64 (x / g)).toInt : ℚ) / (toInt64 (y / g)).toInt = n / d
    rw [hnumerator, hdenominator, ← mul_div_mul_right _ _ hcast, ← Int.cast_mul, ← Int.cast_mul, hn, hd']

/-- **What is reduced is in lowest terms**, and the number is the same. -/
theorem lowest_reduced (hx : IsInteger x n) (hy : IsInteger y d) (hd : d ≠ 0) :
    (reduced x y).Lowest ∧ (reduced x y).toRat = n / d := by
  have hcancel {a b : Float} {i j : Int} (ha : IsInteger a i) (hb : IsInteger b j) (hj : 0 < j) :=
    lowest_cancel ha hb hj (isInteger_divisor ha hb hj)
  have hone {a b : Float} {i j : Int} (ha : IsInteger a i) (hb : IsInteger b j) (hj : 0 < j) :
      ¬ ((if a == 0 then b else Double.gcd a.abs b) == 0) = true := by
    rw [beq_zero_iff (isInteger_divisor ha hb hj)]
    have hpos : 0 < Int.gcd i j := Int.gcd_pos_of_ne_zero_right i hj.ne'
    omega
  unfold reduced
  dsimp only
  by_cases hflip : Double.round y < 0
  · have hneg : d < 0 := (lt_zero_iff hy.round).1 hflip
    simp only [if_pos hflip]
    rw [if_neg (hone hx.round.neg hy.round.neg (by omega))]
    have h := hcancel hx.round.neg hy.round.neg (by omega)
    rwa [Int.cast_neg, Int.cast_neg, neg_div_neg_eq] at h
  · have hpos : 0 < d := by
      have hnonneg := mt (lt_zero_iff hy.round).2 hflip
      omega
    simp only [if_neg hflip]
    rw [if_neg (hone hx.round hy.round hpos)]
    exact hcancel hx.round hy.round hpos

/-! ## Sums -/

/-- No integer on the way to a sum is larger than those that doubles hold: the product of the denominators, the
numerators over the least common multiple, and their sum. -/
structure SumInRange (r s : Ratio) : Prop where
  denominators : (r.denominator.toInt * s.denominator.toInt).natAbs ≤ 2 ^ 53
  left : (r.numerator.toInt * Int.lcm r.denominator.toInt s.denominator.toInt).natAbs ≤ 2 ^ 53
  right : (s.numerator.toInt * Int.lcm r.denominator.toInt s.denominator.toInt).natAbs ≤ 2 ^ 53
  sum : (r.numerator.toInt * Int.lcm r.denominator.toInt s.denominator.toInt / r.denominator.toInt +
    s.numerator.toInt * Int.lcm r.denominator.toInt s.denominator.toInt / s.denominator.toInt).natAbs ≤ 2 ^ 53

instance (r s : Ratio) : Decidable (r.SumInRange s) :=
  decidable_of_iff (_ ∧ _ ∧ _ ∧ _)
    ⟨fun ⟨denominators, left, right, sum⟩ => ⟨denominators, left, right, sum⟩,
      fun h => ⟨h.denominators, h.left, h.right, h.sum⟩⟩

theorem SumInRange.symm (h : r.SumInRange s) : s.SumInRange r where
  denominators := Int.mul_comm _ _ ▸ h.denominators
  left := Int.lcm_comm _ _ ▸ h.right
  right := Int.lcm_comm _ _ ▸ h.left
  sum := by
    have hsum := h.sum
    rwa [Int.lcm_comm, Int.add_comm] at hsum

theorem SumInRange.isInteger_parts (h : r.SumInRange s) (hr : r.denominator.toInt ≠ 0) (hs : s.denominator.toInt ≠ 0) :
    IsInteger (ofInt64 r.numerator) r.numerator.toInt ∧ IsInteger (ofInt64 r.denominator) r.denominator.toInt := by
  have hlcm : 0 < Int.lcm r.denominator.toInt s.denominator.toInt := Int.lcm_pos hr hs
  have hden := h.denominators
  have hnum := h.left
  rw [Int.natAbs_mul] at hden hnum
  refine ⟨isInteger_ofInt ?_, isInteger_ofInt ?_⟩
  · exact (Nat.le_mul_of_pos_right _ hlcm).trans hnum
  · exact (Nat.le_mul_of_pos_right _ (Int.natAbs_pos.2 hs)).trans hden

/-- A numerator is brought to a common multiple of the denominators. -/
theorem isInteger_scaled {j c : Int} {z : Float} (hx : IsInteger x n) (hy : IsInteger y d) (hz : IsInteger z j)
    (hd : d ≠ 0) (hj : j = c * d) (h : (n * j).natAbs ≤ 2 ^ 53) : IsInteger (x * z / y) (n * c) := by
  have hproduct := hx.mul hz h
  rw [hj, ← Int.mul_assoc] at hproduct
  exact hproduct.div hy hd

/-- The numerators over a common multiple have the sum that they have over the least one, up to the sign. -/
theorem natAbs_sum_eq {n₁ n₂ d₁ d₂ c₁ c₂ j : Int} {l : Nat} (hd₁ : d₁ ≠ 0) (hd₂ : d₂ ≠ 0) (hj : j.natAbs = l)
    (h₁ : j = c₁ * d₁) (h₂ : j = c₂ * d₂) : (n₁ * l / d₁ + n₂ * l / d₂).natAbs = (n₁ * c₁ + n₂ * c₂).natAbs := by
  have hquotient {n c d a : Int} (hd : d ≠ 0) (ha : a = c * d) : n * a / d = n * c := by
    rw [ha, ← Int.mul_assoc, Int.mul_ediv_cancel _ hd]
  rcases Int.natAbs_eq j with hl | hl <;> rw [hj] at hl
  · rw [← hl, hquotient hd₁ h₁, hquotient hd₂ h₂]
  · have hneg {c d : Int} (h : j = c * d) : (l : Int) = -c * d := by rw [Int.neg_mul, ← h]; omega
    rw [hquotient hd₁ (hneg h₁), hquotient hd₂ (hneg h₂), Int.mul_neg, Int.mul_neg, ← Int.neg_add, Int.natAbs_neg]

/-- **A sum in range is exact.** -/
theorem lowest_add (hr : r.denominator.toInt ≠ 0) (hs : s.denominator.toInt ≠ 0) (h : r.SumInRange s) :
    (r + s).Lowest ∧ (r + s).toRat = r.toRat + s.toRat := by
  obtain ⟨hn₁, hd₁⟩ := h.isInteger_parts hr hs
  obtain ⟨hn₂, hd₂⟩ := h.symm.isInteger_parts hs hr
  obtain ⟨j, hj, hlcm⟩ := isInteger_lcm hd₁ hd₂ hs h.denominators
  have hne : j ≠ 0 := by
    have hpos : 0 < Int.lcm r.denominator.toInt s.denominator.toInt := Int.lcm_pos hr hs
    omega
  obtain ⟨c₁, hc₁⟩ := exists_eq_mul_left_of_dvd (Int.natAbs_dvd_natAbs.1 (hlcm ▸ Nat.dvd_lcm_left _ _) :
    r.denominator.toInt ∣ j)
  obtain ⟨c₂, hc₂⟩ := exists_eq_mul_left_of_dvd (Int.natAbs_dvd_natAbs.1 (hlcm ▸ Nat.dvd_lcm_right _ _) :
    s.denominator.toInt ∣ j)
  have hleft := isInteger_scaled hn₁ hd₁ hj hr hc₁ (by
    have hbound := h.left
    rwa [Int.natAbs_mul, Int.natAbs_natCast, ← hlcm, ← Int.natAbs_mul] at hbound)
  have hright := isInteger_scaled hn₂ hd₂ hj hs hc₂ (by
    have hbound := h.right
    rwa [Int.natAbs_mul, Int.natAbs_natCast, ← hlcm, ← Int.natAbs_mul] at hbound)
  have hsum := hleft.add hright (natAbs_sum_eq hr hs hlcm hc₁ hc₂ ▸ h.sum)
  obtain ⟨hlowest, hvalue⟩ := lowest_reduced hsum hj hne
  refine ⟨hlowest, hvalue.trans ?_⟩
  have hj' : (j : ℚ) ≠ 0 := by exact_mod_cast hne
  have hc₁' : (j : ℚ) = c₁ * r.denominator.toInt := by exact_mod_cast hc₁
  have hc₂' : (j : ℚ) = c₂ * s.denominator.toInt := by exact_mod_cast hc₂
  have hquotient {n c d : ℚ} (hc : (j : ℚ) = c * d) : n * c / j = n / d := by
    rw [hc, mul_comm c d]
    exact mul_div_mul_right _ _ fun h => hj' (by rw [hc, h, zero_mul])
  rw [toRat, toRat, Int.cast_add, Int.cast_mul, Int.cast_mul, add_div, hquotient hc₁', hquotient hc₂']

/-- Negating a ratio negates its number: a numerator in range is not the one word without an opposite. -/
theorem toRat_neg (h : s.numerator.toInt.natAbs ≤ 2 ^ 53) : (-s).toRat = -s.toRat := by
  have hnumerator : (-s.numerator).toInt = -s.numerator.toInt := by
    rw [Int64.toInt_neg]
    exact Int.bmod_eq_of_le (by omega) (by omega)
  show ((-s.numerator).toInt : ℚ) / s.denominator.toInt = -(s.numerator.toInt / s.denominator.toInt)
  rw [hnumerator, Int.cast_neg, neg_div]

theorem sub_eq_add_neg (r s : Ratio) : r - s = r + -s := rfl

/-- **Arithmetic on ratios is exact** where no integer on the way is too large for a double. A sum is the number that
its parts add up to, in lowest terms, zero has the denominator one, the order of the parts does not matter, and taking
one of them away leaves the other one reduced. Reducing finds the one ratio in lowest terms of a number. -/
theorem exact_of_inRange :
    (∀ r s : Ratio, r.denominator.toInt ≠ 0 → s.denominator.toInt ≠ 0 → r.SumInRange s →
      (r + s).Lowest ∧ (r + s).toRat = r.toRat + s.toRat ∧ (r.toRat + s.toRat = 0 → r + s = zero) ∧ r + s = s + r ∧
      ((r + s).SumInRange (-s) → r + s - s = reduced (ofInt64 r.numerator) (ofInt64 r.denominator))) ∧
    ∀ (n d : Int) (x y : Float), n.natAbs ≤ 2 ^ 53 → d.natAbs ≤ 2 ^ 53 → d ≠ 0 →
      (x == Float.ofInt n) = true → (y == Float.ofInt d) = true →
      ∀ q : Ratio, q = reduced x y ↔ q.Lowest ∧ q.toRat = n / d := by
  refine ⟨fun r s hr hs h => ?_, fun n d x y hn hd hne hx hy q => ?_⟩
  · obtain ⟨hlowest, hvalue⟩ := lowest_add hr hs h
    obtain ⟨hlowest', hvalue'⟩ := lowest_add hs hr h.symm
    refine ⟨hlowest, hvalue, fun hzero => ?_, ?_, fun hsecond => ?_⟩
    · exact hlowest.eq_of_toRat lowest_zero (by rw [hvalue, hzero, toRat_zero])
    · exact hlowest.eq_of_toRat hlowest' (by rw [hvalue, hvalue', add_comm])
    · obtain ⟨hn, hd⟩ := h.isInteger_parts hr hs
      obtain ⟨hreduced, hparts⟩ := lowest_reduced hn hd hr
      obtain ⟨hback, hdifference⟩ := lowest_add (s := -s) hlowest.denominator_pos.ne' hs hsecond
      have hnumerator := (h.symm.isInteger_parts hs hr).1.natAbs_le
      rw [sub_eq_add_neg]
      refine hback.eq_of_toRat hreduced (hdifference.trans ?_)
      rw [hparts, hvalue, toRat_neg hnumerator, add_neg_cancel_right, toRat]
  · obtain ⟨hreduced, hvalue⟩ := lowest_reduced ((isInteger_ofInt hn).of_beq hx) ((isInteger_ofInt hd).of_beq hy) hne
    constructor
    · rintro rfl
      exact ⟨hreduced, hvalue⟩
    · rintro ⟨hq, hqvalue⟩
      exact hq.eq_of_toRat hreduced (hqvalue.trans hvalue.symm)

/-- A half with a negative denominator and a third; the least common multiple is negative. The numerator of the ratio
that is reduced is the negative zero. -/
theorem exact_of_inRange_negativeParts :
    SumInRange ⟨1, -2⟩ ⟨1, 3⟩ ∧ SumInRange (⟨1, -2⟩ + ⟨1, 3⟩) (-⟨1, 3⟩) ∧
      ((⟨1, -2⟩ + ⟨1, 3⟩ : Ratio).Lowest ∧ (⟨1, -2⟩ + ⟨1, 3⟩ : Ratio).toRat = toRat ⟨1, -2⟩ + toRat ⟨1, 3⟩) ∧
      (⟨1, -2⟩ + ⟨1, 3⟩ - ⟨1, 3⟩ : Ratio) = reduced (ofInt64 1) (ofInt64 (-2)) ∧
      toRat ⟨1, -2⟩ + toRat ⟨1, 2⟩ = 0 ∧ (⟨1, -2⟩ + ⟨1, 2⟩ : Ratio) = zero ∧
      (-0.0 == Float.ofInt 0) = true ∧ reduced (-0.0) (Float.ofInt (-4)) = zero := by
  have hrange : SumInRange ⟨1, -2⟩ ⟨1, 3⟩ := by decide
  have hsecond : SumInRange (⟨1, -2⟩ + ⟨1, 3⟩) (-⟨1, 3⟩) := by decide +kernel
  have hzero : toRat ⟨1, -2⟩ + toRat ⟨1, 2⟩ = 0 := by
    show (1 / (-2 : Int) + 1 / (2 : Int) : ℚ) = 0
    norm_num
  have hnegative : (-0.0 == Float.ofInt 0) = true := by decide +kernel
  obtain ⟨hlowest, hvalue, -, -, hback⟩ := exact_of_inRange.1 ⟨1, -2⟩ ⟨1, 3⟩ (by decide) (by decide) hrange
  obtain ⟨-, -, hnull, -⟩ := exact_of_inRange.1 ⟨1, -2⟩ ⟨1, 2⟩ (by decide) (by decide) (by decide)
  have hreduced := exact_of_inRange.2 0 (-4) (-0.0) (Float.ofInt (-4)) (by decide) (by decide) (by decide) hnegative
    (by decide +kernel) zero
  have hvalueZero : zero.toRat = (0 : Int) / (-4 : Int) := by
    rw [toRat_zero, Int.cast_zero, zero_div]
  exact ⟨hrange, hsecond, ⟨hlowest, hvalue⟩, hback hsecond, hzero, hnull hzero, hnegative,
    (hreduced.2 ⟨lowest_zero, hvalueZero⟩).symm⟩

end ScoreDecoding.Ratio
