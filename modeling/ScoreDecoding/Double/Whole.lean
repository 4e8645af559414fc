import ScoreDecoding.Double.Integer
import ScoreDecoding.Double.Natural
import ScoreDecoding.Double.Places

/-!
# Integers as doubles

Integers up to `2 ^ 53` are doubles, and an operation whose exact result is such an integer gives it. So arithmetic on
doubles is that of integers as long as all results stay within this bound. Of zero there are two doubles; no operation
here tells them apart.

- `Whole` says which integer an unpacked double is, and `IsInteger` says so of a double;
- `IsInteger.add`, `IsInteger.mul` and `IsInteger.div` (without a rest) are exact, and so is rounding
  (`IsInteger.round`);
- `isInteger_gcd` and `isInteger_lcm`: divisors and multiples, whose signs may be negative.
-/

namespace ScoreDecoding.Double

open Float.Model Float.Model.UnpackedFloat

variable {n m : Nat} {e : Int} {sign : Sign} {u v : UnpackedFloat} {k l : Int} {x y : Float}

/-! ## Unpacked integers -/

/-- An unpacked double is an integer. -/
inductive Whole : UnpackedFloat → Int → Prop
  | zero (sign : Sign) : Whole (.zero sign) 0
  | finite (sign : Sign) {n m : Nat} {e : Int} (hpos : 0 < m) : Places n m e →
      Whole (.finite sign m e hpos) (sign.apply n)

theorem apply_mul (s t : Sign) (a b : Int) : (s * t).apply (a * b) = s.apply a * t.apply b := by
  cases s <;> cases t
  · exact (Int.neg_mul_neg a b).symm
  · exact (Int.neg_mul a b).symm
  · exact (Int.mul_neg a b).symm
  · rfl

theorem natAbs_apply (s : Sign) (n : Nat) : (s.apply (n : Int)).natAbs = n := by
  cases s
  · exact (Int.natAbs_neg _).trans (Int.natAbs_natCast n)
  · exact Int.natAbs_natCast n

theorem sign_div_mul (s t : Sign) : s / t * t = s := by cases s <;> cases t <;> rfl

theorem Whole.unpack_pack (h : Whole u k) : (pack u).unpack = u := by
  cases h with
  | zero sign => cases sign <;> rfl
  | finite sign hpos hplaces => exact hplaces.unpack_pack sign

/-! ## Rounding -/

/-- An integer that is rounded is left as it is. -/
theorem whole_round (hn : n ≤ 2 ^ 53) (hm : 0 < m) (h : (m : ℚ) * 2 ^ e = n) (sign : Sign) :
    Whole (UnpackedFloat.round .binary64 sign m e) (sign.apply n) := by
  have hpos : (0 : ℚ) < n := by rw [← h]; positivity
  obtain ⟨M, E, hplaces, -⟩ := exists_places (by exact_mod_cast hpos) hn
  rw [hplaces.round_eq h hm]
  exact .finite sign _ hplaces

theorem whole_normalize {j : Int} (zeroSign : Sign) (h : (j : ℚ) * 2 ^ e = k) (hk : k.natAbs ≤ 2 ^ 53) :
    Whole (UnpackedFloat.normalize .binary64 j e zeroSign) k := by
  have hpow : (0 : ℚ) < 2 ^ e := by positivity
  have habs : (j.natAbs : ℚ) * 2 ^ e = k.natAbs := by
    rw [Nat.cast_natAbs, Nat.cast_natAbs, Int.cast_abs, Int.cast_abs, ← h, abs_mul, abs_of_pos hpow]
  unfold UnpackedFloat.normalize
  split
  · rename_i hj
    have hj : j < 0 := Int.compare_eq_lt.1 hj
    have hneg : k < 0 := by
      have : (k : ℚ) < 0 := by rw [← h]; exact mul_neg_of_neg_of_pos (by exact_mod_cast hj) hpow
      exact_mod_cast this
    have hnat : (-j).toNat = j.natAbs := by omega
    have hsign : k = Sign.negative.apply k.natAbs := by
      show k = -(k.natAbs : Int)
      omega
    rw [hnat]
    conv => rhs; rw [hsign]
    exact whole_round hk (by omega) habs .negative
  · rename_i hj
    have hj : j = 0 := Int.compare_eq_eq.1 hj
    have hzero : k = 0 := by
      rw [hj, Int.cast_zero, zero_mul] at h
      exact_mod_cast h.symm
    rw [hzero]
    exact .zero zeroSign
  · rename_i hj
    have hj : 0 < j := Int.compare_eq_gt.1 hj
    have hnonneg : 0 < k := by
      have : (0 : ℚ) < k := by rw [← h]; exact mul_pos (by exact_mod_cast hj) hpow
      exact_mod_cast this
    have hnat : j.toNat = j.natAbs := by omega
    have hsign : k = Sign.positive.apply k.natAbs := by
      show k = (k.natAbs : Int)
      omega
    rw [hnat]
    conv => rhs; rw [hsign]
    exact whole_round hk (by omega) habs .positive

/-! ## Operations on unpacked integers -/

theorem Whole.neg (h : Whole u k) : Whole u.neg (-k) := by
  cases h with
  | zero sign => exact .zero (-sign)
  | finite sign hpos hplaces =>
    cases sign with
    | negative =>
      show Whole _ (- -(_ : Int))
      rw [Int.neg_neg]
      exact .finite .positive hpos hplaces
    | positive => exact .finite .negative hpos hplaces

theorem Whole.abs (h : Whole u k) : Whole u.abs |k| := by
  cases h with
  | zero sign => exact .zero .positive
  | @finite sign n m e hpos hplaces =>
    have habs : |sign.apply (n : Int)| = n := by
      cases sign with
      | negative => exact (abs_neg _).trans (Nat.abs_cast n)
      | positive => exact Nat.abs_cast n
    rw [habs]
    exact .finite .positive hpos hplaces

/-- A product that is small enough is exact. -/
theorem Whole.mul (hu : Whole u k) (hv : Whole v l) (hkl : (k * l).natAbs ≤ 2 ^ 53) :
    Whole (UnpackedFloat.mul .binary64 u v) (k * l) := by
  cases hu with
  | zero sign =>
    rw [Int.zero_mul]
    cases hv <;> exact .zero _
  | @finite sign n m e hpos hplaces =>
    cases hv with
    | zero sign =>
      rw [Int.mul_zero]
      exact .zero _
    | @finite sign' n' m' e' hpos' hplaces' =>
      rw [Int.natAbs_mul, natAbs_apply, natAbs_apply] at hkl
      have hvalue : ((m * m' : Nat) : ℚ) * 2 ^ (e + e') = (n * n' : Nat) := by
        rw [zpow_add₀ (by norm_num), Nat.cast_mul, Nat.cast_mul, ← hplaces.value, ← hplaces'.value]
        ring
      obtain ⟨M, E, h, -⟩ := exists_places (Nat.mul_pos hplaces.number_pos hplaces'.number_pos) hkl
      have hlarge : 2 ^ 52 ≤ m * m' := hplaces.le_mantissa.trans (Nat.le_mul_of_pos_right m hpos')
      show Whole (roundWithAccuracy .binary64 (sign * sign') (m * m') (e + e') .exact) _
      rw [h.roundWithAccuracy_eq hvalue hlarge, ← apply_mul, ← Int.natCast_mul]
      exact .finite _ _ h

/-- A sum that is small enough is exact. -/
theorem Whole.add (hu : Whole u k) (hv : Whole v l) (hkl : (k + l).natAbs ≤ 2 ^ 53) :
    Whole (UnpackedFloat.add .binary64 u v) (k + l) := by
  cases hu with
  | zero sign =>
    rw [Int.zero_add]
    cases hv with
    | zero sign' =>
      show Whole (if _ then _ else _) 0
      split <;> exact .zero _
    | finite sign' hpos hplaces => exact .finite sign' hpos hplaces
  | @finite sign n m e hpos hplaces =>
    cases hv with
    | zero sign' =>
      rw [Int.add_zero]
      exact .finite sign hpos hplaces
    | @finite sign' n' m' e' hpos' hplaces' =>
      refine whole_normalize .positive ?_ hkl
      -- either mantissa is brought to the smaller exponent
      have hscaled (s : Sign) {n m : Nat} {e f : Int} (h : Places n m e) (hf : f ≤ e) :
          ((s.apply (m <<< (e - f).toNat : Nat) : Int) : ℚ) * 2 ^ f = (s.apply n : Int) := by
        obtain ⟨d, rfl⟩ := exists_eq_sub hf
        have hamount : (e - (e - d)).toNat = d := by omega
        have hpow : (2 : ℚ) ^ e = 2 ^ d * 2 ^ (e - d) := by
          rw [← zpow_natCast, ← zpow_add₀ (by norm_num), add_sub_cancel]
        have hvalue : ((m <<< d : Nat) : ℚ) * 2 ^ (e - d) = n := by
          rw [Nat.shiftLeft_eq, Nat.cast_mul, mul_assoc, Nat.cast_pow, Nat.cast_ofNat, ← hpow]
          exact h.value
        rw [hamount]
        cases s with
        | negative =>
          show ((-(m <<< d : Nat) : Int) : ℚ) * _ = ((-n : Int) : ℚ)
          push_cast
          rw [neg_mul]
          exact congrArg Neg.neg hvalue
        | positive => exact_mod_cast hvalue
      rw [Int.cast_add, add_mul]
      push_cast
      exact congrArg₂ (· + ·) (hscaled sign hplaces (min_le_left e e')) (hscaled sign' hplaces' (min_le_right e e'))

/-- A quotient without a rest is formed with more bits than its place has. -/
theorem Places.divCore_eq {q m' : Nat} {e' : Int} (h : Places (q * n) m e) (h' : Places n m' e') :
    ∃ r f, divCore .binary64 m e m' e' = (r, f, .exact) ∧ (r : ℚ) * 2 ^ f = q ∧ 2 ^ 52 ≤ r := by
  have hbounds := h.bounds
  have hbounds' := h'.bounds
  obtain ⟨t, ht⟩ := exists_eq_sub (show e - 53 ≤ e' by omega)
  have hvalue : ((m * 2 ^ 53 : Nat) : ℚ) * 2 ^ (e' - t) = (m' * q : Nat) * 2 ^ e' := by
    rw [← ht, zpow_sub₀ (by norm_num)]
    push_cast
    have hn := h'.value
    have hqn := h.value
    push_cast at hqn
    rw [← hn] at hqn
    field_simp
    linarith
  have hproduct : m <<< 53 = m' * (2 ^ t * q) := by
    rw [Nat.shiftLeft_eq, eq_two_pow_mul hvalue]
    ring
  have hexponent : min (e - e') (Format.binary64.targetExponent (totalExponent m e - totalExponent m' e')) = -t := by
    rw [Double.targetExponent_eq, totalExponent, totalExponent, h.log2_eq, h'.log2_eq]
    omega
  have hamount : (e - e' - -t).toNat = 53 := by omega
  refine ⟨2 ^ t * q, -t, ?_, ?_, ?_⟩
  · simp only [divCore, hexponent, hamount, hproduct, Nat.mul_div_cancel_left _ h'.pos, Nat.mul_mod_right]
    rfl
  · rw [zpow_neg, zpow_natCast]
    push_cast
    field_simp
  · by_contra hsmall
    have hlt := Nat.mul_lt_mul'' h'.mantissa_lt (Nat.not_le.1 hsmall)
    have hle := h.le_mantissa
    rw [← hproduct, Nat.shiftLeft_eq] at hlt
    omega

/-- A quotient without a rest is exact. -/
theorem Whole.div (hu : Whole u (k * l)) (hv : Whole v l) (hl : l ≠ 0) : Whole (UnpackedFloat.div .binary64 u v) k := by
  generalize hj : k * l = j at hu
  cases hv with
  | zero => exact absurd rfl hl
  | @finite sign' n' m' e' hpos' hplaces' =>
    cases hu with
    | zero sign =>
      obtain rfl : k = 0 := (mul_eq_zero.1 hj).resolve_right hl
      exact .zero _
    | @finite sign n m e hpos hplaces =>
      have hnat : n = k.natAbs * n' := by
        rw [← natAbs_apply sign n, ← hj, Int.natAbs_mul, natAbs_apply]
      rw [hnat] at hplaces hj
      obtain ⟨r, f, hcore, hvalue, hlarge⟩ := hplaces.divCore_eq hplaces'
      have hn' := hplaces'.number_pos
      have hq : 0 < k.natAbs := Nat.pos_of_mul_pos_right hplaces.number_pos
      have hle : k.natAbs ≤ 2 ^ 53 := (Nat.le_mul_of_pos_right _ hn').trans hplaces.le
      obtain ⟨M, E, h, -⟩ := exists_places hq hle
      have hk : k = (sign / sign').apply k.natAbs := by
        refine mul_right_cancel₀ hl ?_
        rw [hj, ← apply_mul, sign_div_mul, Nat.cast_mul]
      unfold UnpackedFloat.div
      dsimp only
      rw [hcore]
      dsimp only
      rw [h.roundWithAccuracy_eq hvalue hlarge]
      conv => rhs; rw [hk]
      exact .finite _ _ h

/-! ## Doubles -/

/-- A double is an integer of at most 53 bits, or the next one. -/
def IsInteger (x : Float) (k : Int) : Prop := Whole x.toModel.unpack k

theorem isInteger_pack (h : Whole u k) : IsInteger ⟨pack u⟩ k := by
  show Whole (pack u).unpack k
  rwa [h.unpack_pack]

theorem IsInteger.neg (hx : IsInteger x k) : IsInteger (-x) (-k) := isInteger_pack (Whole.neg hx)

theorem IsInteger.abs (hx : IsInteger x k) : IsInteger x.abs |k| := isInteger_pack (Whole.abs hx)

theorem IsInteger.mul (hx : IsInteger x k) (hy : IsInteger y l) (h : (k * l).natAbs ≤ 2 ^ 53) :
    IsInteger (x * y) (k * l) := isInteger_pack (Whole.mul hx hy h)

theorem IsInteger.add (hx : IsInteger x k) (hy : IsInteger y l) (h : (k + l).natAbs ≤ 2 ^ 53) :
    IsInteger (x + y) (k + l) := isInteger_pack (Whole.add hx hy h)

theorem IsInteger.div (hx : IsInteger x (k * l)) (hy : IsInteger y l) (hl : l ≠ 0) : IsInteger (x / y) k :=
  isInteger_pack (Whole.div hx hy hl)

theorem isInteger_ofNat (hn : n ≤ 2 ^ 53) : IsInteger (Float.ofNat n) n := by
  show IsInteger (Float.ofScientific n false 0) n
  unfold Float.ofScientific
  split
  · rename_i hsmall
    have hfits : n.toUInt64.toNat = n := UInt64.toNat_ofNat_of_lt' (by show n < 2 ^ 64; omega)
    show IsInteger (n.toUInt64.toFloat * 1) n
    rw [mul_one]
    refine isInteger_pack (whole_normalize (j := n.toUInt64.toNat) .positive ?_ hn)
    rw [hfits, zpow_zero, Rat.mul_one]
  · rename_i hlarge
    have hzero : n ≠ 0 := by
      rintro rfl
      exact hlarge (by decide)
    refine isInteger_pack (u := UnpackedFloat.ofScientific .binary64 n 0) ?_
    obtain ⟨M, E, hplaces, -⟩ := exists_places (Nat.pos_of_ne_zero hzero) hn
    rw [ofScientific_zero hzero, hplaces.roundWithAccuracy_eq]
    · exact .finite .positive _ hplaces
    · show ((n <<< 53 : Nat) : ℚ) * 2 ^ (-53 : Int) = n
      rw [Nat.shiftLeft_eq]
      push_cast
      field_simp
      norm_num
    · show 2 ^ 52 ≤ n <<< 53
      rw [Nat.shiftLeft_eq]
      omega

theorem isInteger_ofInt (hk : k.natAbs ≤ 2 ^ 53) : IsInteger (Float.ofInt k) k := by
  cases k with
  | ofNat n => exact isInteger_ofNat hk
  | negSucc n => exact (isInteger_ofNat (n := n + 1) hk).neg

/-! ## Comparing and rounding -/

/-- A double that is equal to an integer is one. The two zeros are equal. -/
theorem IsInteger.of_beq (hy : IsInteger y k) (h : (x == y) = true) : IsInteger x k := by
  have hunpack : UnpackedFloat.beq x.toModel.unpack y.toModel.unpack = true := h
  unfold IsInteger at hy ⊢
  generalize x.toModel.unpack = u at hunpack
  generalize y.toModel.unpack = v at hunpack hy
  rw [UnpackedFloat.beq, beq_iff_eq] at hunpack
  cases hy with
  | zero sign =>
    cases u with
    | zero sign' => exact .zero sign'
    | finite sign' m e hpos => cases sign' <;> cases hunpack
    | infinity sign' => cases sign' <;> cases hunpack
    | notANumber => cases hunpack
  | @finite sign n m e hpos hplaces =>
    cases u with
    | zero sign' => cases sign <;> cases hunpack
    | infinity sign' => cases sign' <;> cases hunpack
    | notANumber => cases hunpack
    | finite sign' m' e' hpos' =>
      have hsame (h : (compare e' e).then (compare m' m) = .eq) :
          Whole (.finite sign m' e' hpos') (sign.apply n) := by
        rw [Ordering.then_eq_eq] at h
        obtain rfl := Int.compare_eq_eq.1 h.1
        obtain rfl := Nat.compare_eq_eq.1 h.2
        exact .finite sign hpos' hplaces
      cases sign <;> cases sign'
      · exact hsame (Ordering.swap_eq_eq.1 (Option.some.inj hunpack))
      · cases hunpack
      · cases hunpack
      · exact hsame (Option.some.inj hunpack)

theorem lt_zero_iff (hx : IsInteger x k) : x < 0 ↔ k < 0 := by
  have hunpack : x < 0 ↔ UnpackedFloat.lt x.toModel.unpack (.zero .positive) = true := by
    show decide (_ = true) = true ↔ _
    rw [decide_eq_true_iff]
    rfl
  rw [hunpack]
  unfold IsInteger at hx
  generalize x.toModel.unpack = u at hx
  cases hx with
  | zero => decide +revert
  | @finite sign n m e hpos hplaces =>
    have hn := hplaces.number_pos
    cases sign with
    | negative => exact iff_of_true rfl (by show -(n : Int) < 0; omega)
    | positive => exact iff_of_false Bool.false_ne_true (by show ¬ (n : Int) < 0; omega)

theorem beq_zero_iff (hx : IsInteger x k) : (x == 0) = true ↔ k = 0 := by
  have hunpack : (x == 0) = UnpackedFloat.beq x.toModel.unpack (.zero .positive) := rfl
  rw [hunpack]
  unfold IsInteger at hx
  generalize x.toModel.unpack = u at hx
  cases hx with
  | zero sign => exact iff_of_true rfl rfl
  | @finite sign n m e hpos hplaces =>
    have hn := hplaces.number_pos
    cases sign with
    | negative => exact iff_of_false Bool.false_ne_true (by show ¬ -(n : Int) = 0; omega)
    | positive => exact iff_of_false Bool.false_ne_true (by show ¬ (n : Int) = 0; omega)

theorem truncate_eq (hx : IsInteger x k) : truncate x = k := by
  unfold IsInteger at hx
  unfold truncate
  generalize x.toModel.unpack = u at hx
  cases hx with
  | zero => rfl
  | @finite sign n m e hpos hplaces =>
    refine congrArg (fun i : Nat => sign.apply (i : Int)) ?_
    rcases hplaces.cases with ⟨d, rfl, hn⟩ | ⟨d, rfl, hd, hm⟩
    · rw [if_pos (Int.natCast_nonneg d), Int.toNat_natCast, Nat.shiftLeft_eq, hn, Nat.mul_comm]
    · rw [if_neg (by omega), Int.neg_neg, Int.toNat_natCast, Nat.shiftRight_eq_div_pow, hm,
        Nat.mul_div_cancel_left _ (Nat.two_pow_pos d)]

theorem isWhole_eq (hx : IsInteger x k) : isWhole x = true := by
  unfold IsInteger at hx
  unfold isWhole
  generalize x.toModel.unpack = u at hx
  cases hx with
  | zero => rfl
  | @finite sign n m e hpos hplaces =>
    rcases hplaces.cases with ⟨d, rfl, hn⟩ | ⟨d, rfl, hd, hm⟩
    · simp
    · simp [hm, Nat.shiftLeft_eq]

theorem isInteger_ofSigned (hn : n ≤ 2 ^ 53) : IsInteger (ofSigned sign n) (sign.apply n) := by
  cases sign with
  | negative => exact (isInteger_ofNat hn).neg
  | positive => exact isInteger_ofNat hn

theorem IsInteger.round (hx : IsInteger x k) : IsInteger (Double.round x) k := by
  have hx' := hx
  unfold IsInteger at hx'
  unfold Double.round
  generalize x.toModel.unpack = u at hx'
  cases hx' with
  | zero => exact hx
  | @finite sign n m e hpos hplaces =>
    dsimp only
    rcases hplaces.cases with ⟨d, rfl, hn⟩ | ⟨d, rfl, hd, hm⟩
    · rw [if_pos (Int.natCast_nonneg d)]
      exact hx
    · rw [if_neg (by omega), Int.neg_neg, Int.toNat_natCast, Nat.one_shiftLeft, hm]
      have hnearest : (2 * (2 ^ d * n) + 2 ^ d) / (2 * 2 ^ d) = n := by
        have hpow := Nat.two_pow_pos d
        rw [← Nat.mul_assoc, Nat.add_comm, Nat.add_mul_div_left _ _ (by omega), Nat.div_eq_of_lt (by omega),
          Nat.zero_add]
      rw [hnearest]
      exact isInteger_ofSigned hplaces.le

theorem IsInteger.natAbs_le (hx : IsInteger x k) : k.natAbs ≤ 2 ^ 53 := by
  unfold IsInteger at hx
  generalize x.toModel.unpack = u at hx
  cases hx with
  | zero => decide
  | finite sign hpos hplaces =>
    rw [natAbs_apply]
    exact hplaces.le

theorem toInt_toInt64 (hx : IsInteger x k) : (toInt64 x).toInt = k := by
  have htruncate := truncate_eq hx
  have hle := hx.natAbs_le
  have hclamp : toInt64 x = Int64.ofIntClamp (truncate x) := by
    unfold IsInteger at hx
    unfold toInt64
    generalize x.toModel.unpack = u at hx
    cases hx <;> rfl
  rw [hclamp, htruncate]
  have hmin : Int64.minValue.toInt = -2 ^ 63 := rfl
  have hmax : Int64.maxValue.toInt = 2 ^ 63 - 1 := rfl
  exact Int64.toInt_ofIntClamp (by omega) (by omega)

/-! ## Divisors and multiples -/

theorem natAbs_signedGcd (a b : Int) : (signedGcd a b).natAbs = Int.gcd a b := by
  fun_induction signedGcd a b with
  | case1 a => exact (Int.gcd_zero_right a).symm
  | case2 a b hb ih =>
    rw [ih, Int.gcd_def, Int.gcd_def, Int.natAbs_tmod, Nat.gcd_comm, ← Nat.gcd_rec, Nat.gcd_comm]

theorem signedGcd_nonneg {a b : Int} (ha : 0 ≤ a) (hb : 0 ≤ b) : 0 ≤ signedGcd a b := by
  fun_induction signedGcd a b with
  | case1 a => exact ha
  | case2 a b _ ih => exact ih hb (Int.tmod_nonneg b ha)

theorem isInteger_gcd (hx : IsInteger x k) (hy : IsInteger y l) : IsInteger (gcd x y) (signedGcd k l) := by
  unfold gcd
  rw [isWhole_eq hx, isWhole_eq hy]
  simp only [Bool.not_true, Bool.or_false, Bool.false_eq_true, if_false]
  split
  · rename_i hzero
    rw [(beq_zero_iff hy).1 hzero, signedGcd, dif_pos rfl]
    exact hx
  · rename_i hzero
    rw [truncate_eq hx, truncate_eq hy]
    refine isInteger_ofInt ?_
    rw [natAbs_signedGcd]
    have hl : 0 < l.natAbs := Int.natAbs_pos.2 fun h => hzero ((beq_zero_iff hy).2 h)
    exact (Nat.le_of_dvd hl (Nat.gcd_dvd_right _ _)).trans hy.natAbs_le

/-- The least common multiple may have either sign. -/
theorem isInteger_lcm (hx : IsInteger x k) (hy : IsInteger y l) (hl : l ≠ 0) (hkl : (k * l).natAbs ≤ 2 ^ 53) :
    ∃ j, IsInteger (lcm x y) j ∧ j.natAbs = Int.lcm k l := by
  have hg := isInteger_gcd hx hy
  have hgcd := natAbs_signedGcd k l
  have hne : signedGcd k l ≠ 0 := by
    rw [← Int.natAbs_ne_zero, hgcd]
    exact fun h => hl (Int.gcd_eq_zero_iff.1 h).2
  have hdvd : signedGcd k l ∣ k := Int.natAbs_dvd_natAbs.1 (hgcd ▸ Nat.gcd_dvd_left _ _)
  obtain ⟨j, hj⟩ := exists_eq_mul_left_of_dvd (hdvd.mul_right l)
  have hproduct := hx.mul hy hkl
  rw [hj] at hproduct
  refine ⟨j, ?_, ?_⟩
  · unfold lcm
    rw [if_neg fun h => hne ((beq_zero_iff hg).1 h)]
    exact hproduct.div hg hne
  · have hpos : 0 < Int.gcd k l := hgcd ▸ Int.natAbs_pos.2 hne
    refine Nat.eq_of_mul_eq_mul_left hpos ?_
    rw [Int.gcd_mul_lcm, ← Int.natAbs_mul, hj, Int.natAbs_mul, hgcd, Nat.mul_comm]

end ScoreDecoding.Double
