import ScoreDecoding.Double.Division

/-!
# Natural numbers with 53 bits

Every natural number up to `2 ^ 53` is a mantissa of 53 bits with an exponent. What an operation gives is another
mantissa with an exponent, and if that is such a number, rounding brings it there without a loss.

- `Places` says that a mantissa with an exponent is a number; every number has one such place (`exists_places`,
  `Places.unique`), and a double can hold it (`Places.unpack_pack`);
- `Places.round_eq` and `Places.roundWithAccuracy_eq`: rounding what is the number gives its place.
-/

namespace ScoreDecoding.Double

open Float.Model Float.Model.UnpackedFloat

/-! ## Places -/

/-- A mantissa of 53 bits with an exponent is a natural number of at most 53 bits, or the next one. -/
structure Places (n m : Nat) (e : Int) : Prop where
  log2_eq : m.log2 = 52
  value : (m : ℚ) * 2 ^ e = n
  le : n ≤ 2 ^ 53

variable {n m M : Nat} {e E : Int} {sign : Sign}

/-- A mantissa with a smaller exponent has more bits. -/
theorem eq_two_pow_mul {k : Nat} (h : (m : ℚ) * 2 ^ (E - k) = M * 2 ^ E) : m = 2 ^ k * M := by
  have hpow : (2 : ℚ) ^ E = 2 ^ k * 2 ^ (E - k) := by
    rw [← zpow_natCast, ← zpow_add₀ (by norm_num), add_sub_cancel]
  have hne : (2 : ℚ) ^ (E - k) ≠ 0 := by positivity
  rw [hpow, ← mul_assoc] at h
  have hcast := mul_right_cancel₀ hne h
  rw [mul_comm] at hcast
  exact_mod_cast hcast

theorem exists_eq_sub (h : e ≤ E) : ∃ k : Nat, e = E - k := ⟨(E - e).toNat, by omega⟩

/-- Numbers that are equal have the same first bit. -/
theorem totalExponent_eq_of_value (hm : 0 < m) (hM : 0 < M) (h : (m : ℚ) * 2 ^ e = M * 2 ^ E) :
    totalExponent m e = totalExponent M E := by
  rcases Int.le_total e E with hle | hle
  · obtain ⟨k, rfl⟩ := exists_eq_sub hle
    rw [eq_two_pow_mul h, totalExponent_two_pow_mul hM]
  · obtain ⟨k, rfl⟩ := exists_eq_sub hle
    rw [eq_two_pow_mul h.symm, totalExponent_two_pow_mul hm]

theorem Places.pos (h : Places n m e) : 0 < m := by
  refine Nat.pos_of_ne_zero fun hm => ?_
  have hlog := h.log2_eq
  rw [hm] at hlog
  cases hlog

/-- Every natural number up to `2 ^ 53` has its place. -/
theorem exists_places (hn : 0 < n) (hle : n ≤ 2 ^ 53) : ∃ m e, Places n m e ∧ -52 ≤ e ∧ e ≤ 1 := by
  have hlow : 2 ^ n.log2 ≤ n := Nat.log2_self_le (by omega)
  have hhigh : n < 2 ^ (n.log2 + 1) := Nat.lt_log2_self
  rcases Nat.lt_or_ge 52 n.log2 with hlog | hlog
  · -- the largest one
    have htop : n = 2 ^ 53 := le_antisymm hle ((Nat.pow_le_pow_right Nat.two_pos hlog).trans hlow)
    refine ⟨2 ^ 52, 1, ⟨by decide, ?_, hle⟩, by decide, by decide⟩
    rw [htop]
    norm_num
  · refine ⟨2 ^ (52 - n.log2) * n, n.log2 - 52, ⟨?_, ?_, hle⟩, by omega, by omega⟩
    · have htotal := totalExponent_two_pow_mul hn 0 (52 - n.log2)
      rw [totalExponent, totalExponent] at htotal
      omega
    · have hexp : ((n.log2 : Int) - 52) = -((52 - n.log2 : Nat) : Int) := by omega
      rw [hexp, zpow_neg, zpow_natCast]
      push_cast
      field_simp

/-- And it has no other. -/
theorem Places.unique (h : Places n m e) (h' : Places n M E) : m = M ∧ e = E := by
  have hvalue := h.value.trans h'.value.symm
  have htotal := totalExponent_eq_of_value h.pos h'.pos hvalue
  rw [totalExponent, totalExponent, h.log2_eq, h'.log2_eq] at htotal
  obtain rfl : e = E := by omega
  have hne : (2 : ℚ) ^ e ≠ 0 := by positivity
  exact ⟨by exact_mod_cast mul_right_cancel₀ hne hvalue, rfl⟩

theorem Places.number_pos (h : Places n m e) : 0 < n := by
  have hm : (0 : ℚ) < m := by exact_mod_cast h.pos
  have hvalue := h.value
  have hn : (0 : ℚ) < n := by rw [← hvalue]; positivity
  exact_mod_cast hn

theorem Places.bounds (h : Places n m e) : -52 ≤ e ∧ e ≤ 1 := by
  obtain ⟨M, E, h', hbounds⟩ := exists_places h.number_pos h.le
  rwa [(h.unique h').2]

theorem Places.le_mantissa (h : Places n m e) : 2 ^ 52 ≤ m := h.log2_eq ▸ Nat.log2_self_le h.pos.ne'

theorem Places.mantissa_lt (h : Places n m e) : m < 2 ^ 53 := by
  have hlt : m < 2 ^ (m.log2 + 1) := Nat.lt_log2_self
  rwa [h.log2_eq] at hlt

/-- A number is a multiple of its mantissa, or its mantissa is one of it. -/
theorem Places.cases (h : Places n m e) :
    (∃ d : Nat, e = d ∧ n = 2 ^ d * m) ∨ ∃ d : Nat, e = -d ∧ 0 < d ∧ m = 2 ^ d * n := by
  have hvalue : (n : ℚ) * 2 ^ (0 : Int) = m * 2 ^ e := by rw [h.value, zpow_zero, Rat.mul_one]
  rcases le_or_gt 0 e with he | he
  · obtain ⟨d, rfl⟩ := Int.eq_ofNat_of_zero_le he
    refine .inl ⟨d, rfl, eq_two_pow_mul (E := d) ?_⟩
    rwa [Int.sub_self]
  · obtain ⟨d, rfl⟩ := Int.exists_eq_neg_ofNat he.le
    refine .inr ⟨d, rfl, by omega, eq_two_pow_mul (E := 0) ?_⟩
    rw [Int.zero_sub]
    exact hvalue.symm

/-! ## Rounding -/

/-- The exponent that a number should have is that of its place. -/
theorem Places.targetExponent_eq (h : Places n M E) (hm : 0 < m) (hvalue : (m : ℚ) * 2 ^ e = n) :
    Format.binary64.targetExponent (totalExponent m e) = E := by
  have htotal := totalExponent_eq_of_value hm h.pos (hvalue.trans h.value.symm)
  obtain ⟨hlow, -⟩ := h.bounds
  rw [htotal, Double.targetExponent_eq, totalExponent, h.log2_eq]
  omega

theorem Places.target_self (h : Places n m e) : Format.binary64.targetExponent (totalExponent m e) = e :=
  h.targetExponent_eq h.pos h.value

/-- A number with 53 bits or more is rounded to its place. -/
theorem Places.roundWithAccuracy_eq (h : Places n M E) (hvalue : (m : ℚ) * 2 ^ e = n) (hm : 2 ^ 52 ≤ m) :
    roundWithAccuracy .binary64 sign m e .exact = .finite sign M E h.pos := by
  have hpos : 0 < m := (Nat.two_pow_pos 52).trans_le hm
  have hlog : 52 ≤ m.log2 := (Nat.le_log2 hpos.ne').2 hm
  have htotal := totalExponent_eq_of_value hpos h.pos (hvalue.trans h.value.symm)
  rw [totalExponent, totalExponent, h.log2_eq] at htotal
  obtain ⟨k, rfl⟩ := exists_eq_sub (show e ≤ E by omega)
  have hshift := shiftToTargetExponent_two_pow_mul h.pos h.target_self k
  rw [← eq_two_pow_mul (hvalue.trans h.value.symm)] at hshift
  exact roundWithAccuracy_of_shift sign h.pos h.target_self hshift

/-- A number with fewer bits is given more of them first. -/
theorem Places.round_eq (h : Places n M E) (hvalue : (m : ℚ) * 2 ^ e = n) (hm : 0 < m) :
    UnpackedFloat.round .binary64 sign m e = .finite sign M E h.pos := by
  unfold UnpackedFloat.round
  dsimp only [decreaseExponent]
  rw [h.targetExponent_eq hm hvalue]
  have hsame := hvalue.trans h.value.symm
  rcases Int.le_total e E with hle | hle
  · -- it has them already
    obtain ⟨k, rfl⟩ := exists_eq_sub hle
    have hamount : (E - k - E).toNat = 0 := by omega
    rw [hamount, Nat.shiftLeft_zero, Int.natCast_zero, Int.sub_zero, eq_two_pow_mul hsame]
    exact roundWithAccuracy_of_shift sign h.pos h.target_self (shiftToTargetExponent_two_pow_mul h.pos h.target_self k)
  · obtain ⟨k, rfl⟩ := exists_eq_sub hle
    have hamount : (e - (e - k)).toNat = k := by omega
    have hshift : m <<< k = M := by rw [Nat.shiftLeft_eq, Nat.mul_comm, eq_two_pow_mul hsame.symm]
    rw [hamount, hshift]
    exact roundWithAccuracy_of_shift sign h.pos h.target_self (shiftToTargetExponent_of_canonical h.target_self)

/-! ## Packing -/

/-- What is packed is unpacked again, if a double holds its exponent beside a mantissa of 53 bits. -/
theorem unpack_pack_of_log2 (hlog : m.log2 = 52) (hlow : -1074 ≤ e) (hhigh : e ≤ 971) (hpos : 0 < m) (sign : Sign) :
    (pack (.finite sign m e hpos)).unpack = .finite sign m e hpos := by
  have hlower : 2 ^ 52 ≤ m := hlog ▸ Nat.log2_self_le hpos.ne'
  have hupper : m < 2 ^ 53 := by
    have hlt : m < 2 ^ (m.log2 + 1) := Nat.lt_log2_self
    rwa [hlog] at hlt
  have hbiased : (e + Format.binary64.exponentBias + Format.binary64.mantissaBitsWithoutImplicit).toNat =
      (e + 1075).toNat := by
    show (e + 1023 + 52).toNat = _
    omega
  have hfits : ¬ 2 ^ Format.binary64.exponentBits ≤ (e + 1075).toNat + 1 := by
    show ¬ 2048 ≤ _
    omega
  have hnormal : m.log2 + 1 = Format.binary64.mantissaBits := congrArg (· + 1) hlog
  have hpack : UnpackedFloat.pack .binary64 (.finite sign m e hpos) =
      packComponents .binary64 sign (BitVec.ofNat _ (e + 1075).toNat) (BitVec.ofNat _ m) := by
    simp only [UnpackedFloat.pack, hbiased]
    rw [if_neg hfits, if_pos hnormal]
  -- what the fields hold
  have hexponent : (BitVec.ofNat Format.binary64.exponentBits (e + 1075).toNat).toNat = (e + 1075).toNat := by
    rw [BitVec.toNat_ofNat]
    exact Nat.mod_eq_of_lt (by show _ < 2048; omega)
  have hmantissa : (1#1 ++ BitVec.ofNat Format.binary64.mantissaBitsWithoutImplicit m).toNat = m := by
    refine (toNat_one_append (BitVec.ofNat 52 m)).trans ?_
    rw [BitVec.toNat_ofNat]
    omega
  have hfinite : BitVec.ofNat Format.binary64.exponentBits (e + 1075).toNat ≠ -1#_ := by
    intro heq
    have hvalue := congrArg BitVec.toNat heq
    rw [hexponent] at hvalue
    change (e + 1075).toNat = 2047 at hvalue
    omega
  have hpositive : BitVec.ofNat Format.binary64.exponentBits (e + 1075).toNat ≠ 0#_ := by
    intro heq
    have hvalue := congrArg BitVec.toNat heq
    rw [hexponent] at hvalue
    change (e + 1075).toNat = 0 at hvalue
    omega
  show UnpackedFloat.unpack .binary64 (UnpackedFloat.pack .binary64 (.finite sign m e hpos)) = _
  rw [hpack]
  unfold UnpackedFloat.unpack
  simp only [unpackExponent_packComponents, unpackMantissa_packComponents, unpackSign_packComponents,
    if_neg hfinite, if_neg hpositive, hexponent, hmantissa, Sign.ofBitVec_toBitVec]
  congr 1
  show ((e + 1075).toNat : Int) - (1023 + 52) = e
  omega

/-- So is the place of a natural number. -/
theorem Places.unpack_pack (h : Places n m e) (sign : Sign) :
    (pack (.finite sign m e h.pos)).unpack = .finite sign m e h.pos := by
  obtain ⟨hlow, hhigh⟩ := h.bounds
  exact unpack_pack_of_log2 h.log2_eq (by omega) (by omega) h.pos sign

end ScoreDecoding.Double
