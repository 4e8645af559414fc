import ScoreDecoding.Double.Division
import ScoreDecoding.Double.Order

/-!
# The two zeros

The order of values does not tell the two zeros apart, but that of scores does, so it matters that sums do not either. A
sum is the negative zero only if both sides are, since no sum of doubles is so small that it is rounded to zero.

- `Rounded` are finite values as rounding leaves them (`rounded_round`), and none of them is packed to a zero
  (`pack_ne_of_rounded`);
- `Summed` is all that a sum can be (`summed_add`);
- `add_ne_neg_zero`: what is added to anything but the negative zero does not give the negative zero;
- `add_sub_eq_of_rank_eq`: values of one rank have one sum with it.
-/

namespace ScoreDecoding.Double

open Float.Model Float.Model.UnpackedFloat

/-! ## Rounding -/

/-- A finite value with 53 bits at most and an exponent of the format. -/
inductive Rounded : UnpackedFloat → Prop
  | finite (sign : Sign) {mantissa : Nat} {exponent : Int} (hpos : 0 < mantissa) : mantissa < 2 ^ 53 →
      -1074 ≤ exponent → Rounded (.finite sign mantissa exponent hpos)

variable {m : Nat} {e : Int}

theorem mantissa_shift (em : ExtendedMantissa) (k : Nat) : (em >>> k).mantissa = em.mantissa / 2 ^ k := by
  induction k with
  | zero => exact (Nat.div_one _).symm
  | succ k ih =>
    show (em >>> k).mantissa / 2 = _
    rw [ih, Nat.div_div_eq_div_mul, Nat.pow_succ]

theorem le_roundedMantissa (em : ExtendedMantissa) : em.mantissa ≤ em.roundedMantissa := by
  obtain ⟨m, r, s⟩ := em
  cases r
  · cases s <;> exact Nat.le_refl m
  · cases s <;> exact Nat.le_add_right m _

/-- What is shifted keeps its first bit, and 53 bits at most. -/
theorem shiftToTargetExponent_spec (hm : 0 < m) (he : -1074 ≤ e) :
    0 < (shiftToTargetExponent .binary64 m e .exact).1.mantissa ∧
      (shiftToTargetExponent .binary64 m e .exact).1.mantissa < 2 ^ 53 ∧
      -1074 ≤ (shiftToTargetExponent .binary64 m e .exact).2 := by
  have hamount : (Format.binary64.targetExponent (totalExponent m e) - e).toNat = m.log2 - 52 := by
    rw [targetExponent_eq, totalExponent]
    omega
  have hmantissa : (shiftToTargetExponent .binary64 m e .exact).1.mantissa = m / 2 ^ (m.log2 - 52) := by
    rw [← hamount]
    exact mantissa_shift _ _
  have hlower : 2 ^ m.log2 ≤ m := Nat.log2_self_le (by omega)
  have hupper : m < 2 ^ (m.log2 + 1) := Nat.lt_log2_self
  rw [hmantissa]
  refine ⟨Nat.div_pos ((Nat.pow_le_pow_right Nat.two_pos (Nat.sub_le _ _)).trans hlower) (by positivity), ?_, ?_⟩
  · rw [Nat.div_lt_iff_lt_mul (by positivity), ← Nat.pow_add]
    exact hupper.trans_le (Nat.pow_le_pow_right Nat.two_pos (by omega))
  · show -1074 ≤ e + _
    omega

theorem rounded_roundWithAccuracy (sign : Sign) (hm : 0 < m) (he : -1074 ≤ e) :
    Rounded (roundWithAccuracy .binary64 sign m e .exact) := by
  obtain ⟨hpos, -, hexponent⟩ := shiftToTargetExponent_spec hm he
  have hrounded := hpos.trans_le (le_roundedMantissa _)
  obtain ⟨hpos', hlt, hexponent'⟩ := shiftToTargetExponent_spec hrounded hexponent
  unfold roundWithAccuracy
  dsimp only
  rw [dif_neg (Nat.ne_of_gt hpos')]
  exact .finite sign hpos' hlt hexponent'

/-- Nothing is rounded to zero that has an exponent of the format. -/
theorem rounded_round (sign : Sign) (hm : 0 < m) (he : -1074 ≤ e) :
    Rounded (UnpackedFloat.round .binary64 sign m e) := by
  refine rounded_roundWithAccuracy sign ?_ ?_
  · rw [Nat.shiftLeft_eq]
    positivity
  · rw [targetExponent_eq]
    omega

theorem rounded_of_canonical {sign : Sign} {hm : 0 < m} (h : Canonical (.finite sign m e hm)) :
    Rounded (.finite sign m e hm) := by
  cases h with
  | finite _ _ he =>
    rw [targetExponent_eq, totalExponent] at he
    refine .finite sign hm ?_ (by omega)
    exact Nat.lt_log2_self.trans_le (Nat.pow_le_pow_right Nat.two_pos (by omega))

/-! ## Packing -/

theorem unpack_injective {x y : Float} (h : x.toModel.unpack = y.toModel.unpack) : x = y := by
  obtain ⟨⟨bits, hbits⟩⟩ := x
  obtain ⟨⟨bits', hbits'⟩⟩ := y
  have hpack := congrArg (UnpackedFloat.pack .binary64) h
  simp only [Float.Model.unpack, pack_unpack_of_valid hbits, pack_unpack_of_valid hbits'] at hpack
  obtain rfl : bits = bits' := UInt64.toBitVec_inj.1 hpack
  rfl

/-- What sums can be: anything but the negative zero. -/
inductive Summed : UnpackedFloat → Prop
  | infinity (sign : Sign) : Summed (.infinity sign)
  | notANumber : Summed .notANumber
  | zero : Summed (.zero .positive)
  | rounded {u : UnpackedFloat} : Rounded u → Summed u

theorem pack_ne_of_rounded {u : UnpackedFloat} (h : Rounded u) (sign : Sign) :
    UnpackedFloat.pack .binary64 u ≠ packedZero .binary64 sign := by
  obtain ⟨s, hpos, hlt, hexponent⟩ := h
  rename_i m e
  intro heq
  have hbias : (Format.binary64.exponentBias : Int) + Format.binary64.mantissaBitsWithoutImplicit = 1075 := rfl
  have hexp := congrArg unpackExponent heq
  have hman := congrArg unpackMantissa heq
  simp only [UnpackedFloat.pack, packedZero] at hexp hman
  split at hexp
  · rw [packedInfinity, unpackExponent_packComponents, unpackExponent_packComponents] at hexp
    revert hexp
    decide
  · rename_i hfits
    rw [if_neg hfits] at hman
    split at hexp
    · -- the exponent of a normal value is not zero
      rw [unpackExponent_packComponents, unpackExponent_packComponents] at hexp
      have hzero := congrArg BitVec.toNat hexp
      rw [BitVec.toNat_ofNat, Nat.mod_eq_of_lt (by omega)] at hzero
      change (e + 1023 + 52).toNat = 0 at hzero
      omega
    · -- and neither is the mantissa of another one
      rename_i hlog
      rw [if_neg hlog, unpackMantissa_packComponents, unpackMantissa_packComponents] at hman
      have hsmall : m < 2 ^ 52 := (Nat.log2_lt (by omega)).1 (by
        have := (Nat.log2_lt (Nat.ne_of_gt hpos)).2 hlt
        change m.log2 + 1 ≠ 53 at hlog
        omega)
      have hzero := congrArg BitVec.toNat hman
      rw [BitVec.toNat_ofNat] at hzero
      change m % 2 ^ 52 = 0 at hzero
      omega

theorem pack_ne_of_summed {u : UnpackedFloat} (h : Summed u) :
    UnpackedFloat.pack .binary64 u ≠ packedZero .binary64 .negative := by
  cases h with
  | infinity sign => cases sign <;> decide
  | notANumber => decide
  | zero => decide
  | rounded h => exact pack_ne_of_rounded h .negative

/-! ## Sums -/

theorem summed_normalize (m : Int) (he : -1074 ≤ e) : Summed (UnpackedFloat.normalize .binary64 m e .positive) := by
  unfold UnpackedFloat.normalize
  split
  · rename_i h
    exact .rounded (rounded_round _ (by have := Int.compare_eq_lt.1 h; omega) he)
  · exact .zero
  · rename_i h
    exact .rounded (rounded_round _ (by have := Int.compare_eq_gt.1 h; omega) he)

theorem exponent_le_of_canonical {sign : Sign} {hm : 0 < m} (h : Canonical (.finite sign m e hm)) : -1074 ≤ e := by
  cases rounded_of_canonical h with
  | finite _ _ _ he => exact he

/-- A sum is the negative zero only if both sides are. -/
theorem summed_add {x y : UnpackedFloat} (hx : Canonical x) (hy : Canonical y) (hne : x ≠ .zero .negative) :
    Summed (UnpackedFloat.add .binary64 x y) := by
  have hxe := hx
  have hye := hy
  cases hx with
  | notANumber => exact .notANumber
  | infinity sign =>
    cases hy with
    | notANumber => exact .notANumber
    | infinity sign' => cases sign <;> cases sign' <;> constructor
    | zero => exact .infinity sign
    | finite => exact .infinity sign
  | zero sign =>
    cases sign with
    | negative => exact absurd rfl hne
    | positive =>
      cases hy with
      | notANumber => exact .notANumber
      | infinity sign => exact .infinity sign
      | zero sign => cases sign <;> exact .zero
      | finite => exact .rounded (rounded_of_canonical hye)
  | finite sign hm he =>
    cases hy with
    | notANumber => exact .notANumber
    | infinity sign => exact .infinity sign
    | zero => exact .rounded (rounded_of_canonical hxe)
    | finite sign' hm' he' =>
      exact summed_normalize _ (le_min (exponent_le_of_canonical hxe) (exponent_le_of_canonical hye))

theorem canonical_toModel (x : Float) : Canonical x.toModel.unpack := canonical_unpack x.toModel.toBits.toBitVec

/-- **What is added to anything but the negative zero does not give the negative zero.** -/
theorem add_ne_neg_zero {x : Float} (y : Float) (hx : x ≠ -0) : x + y ≠ -0 := by
  intro h
  have hsum := summed_add (canonical_toModel x) (canonical_toModel y) fun hz => hx (unpack_injective hz)
  refine pack_ne_of_summed hsum ?_
  exact congrArg (fun z : Float => z.toModel.toBits.toBitVec) h

/-! ## Differences of equal values -/

theorem add_zero_eq {x : Float} (hx : x ≠ -0) : x + 0 = x + -0 := by
  have hunpack : x.toModel.unpack ≠ .zero .negative := fun hz => hx (unpack_injective hz)
  have hadd : ∀ y : Float, x + y = ⟨pack (UnpackedFloat.add .binary64 x.toModel.unpack y.toModel.unpack)⟩ :=
    fun _ => rfl
  have hz : (0 : Float).toModel.unpack = .zero .positive := rfl
  have hn : (-0 : Float).toModel.unpack = .zero .negative := rfl
  rw [hadd, hadd, hz, hn]
  cases hc : x.toModel.unpack with
  | notANumber => rfl
  | infinity sign => rfl
  | finite => rfl
  | zero sign =>
    cases sign with
    | positive => rfl
    | negative => exact absurd hc hunpack

theorem zero_sub_eq (x : Float) : (0 : Float) - x = -0 - x ∨ ((0 : Float) - x = 0 ∧ (-0 : Float) - x = -0) := by
  have hsub : ∀ y : Float, y - x = ⟨pack (UnpackedFloat.sub .binary64 y.toModel.unpack x.toModel.unpack)⟩ :=
    fun _ => rfl
  have hz : (0 : Float).toModel.unpack = .zero .positive := rfl
  have hn : (-0 : Float).toModel.unpack = .zero .negative := rfl
  rw [hsub, hsub, hz, hn]
  cases x.toModel.unpack with
  | notANumber => exact .inl rfl
  | infinity sign => exact .inl rfl
  | finite => exact .inl rfl
  | zero sign =>
    cases sign with
    | positive => exact .inr ⟨rfl, rfl⟩
    | negative => exact .inl rfl

theorem toBits_injective {x y : Float} (h : x.toBits.toNat = y.toBits.toNat) : x = y := by
  obtain ⟨⟨bits, hbits⟩⟩ := x
  obtain ⟨⟨bits', hbits'⟩⟩ := y
  obtain rfl : bits = bits' := UInt64.toNat_inj.1 h
  rfl

/-- Values of one rank are equal, or they are the two zeros. -/
theorem eq_or_zeros_of_rank_eq {x y : Float} (h : rank x = rank y) :
    x = y ∨ (x = 0 ∧ y = -0) ∨ (x = -0 ∧ y = 0) := by
  have hx := x.toBits.toNat_lt
  have hy := y.toBits.toNat_lt
  have hz : (0 : Float).toBits.toNat = 0 := rfl
  have hn : (-0 : Float).toBits.toNat = 2 ^ 63 := rfl
  have hcases : x.toBits.toNat = y.toBits.toNat ∨ (x.toBits.toNat = 0 ∧ y.toBits.toNat = 2 ^ 63) ∨
      (x.toBits.toNat = 2 ^ 63 ∧ y.toBits.toNat = 0) := by
    have hsign : ∀ z : Float, isNegative z = true ↔ 2 ^ 63 ≤ z.toBits.toNat := fun _ => decide_eq_true_iff
    have hmagnitude : ∀ z : Float, magnitude z = z.toBits.toNat % 2 ^ 63 := fun _ => rfl
    rw [rank, rank, hmagnitude, hmagnitude] at h
    split at h <;> split at h <;> simp only [hsign] at * <;> omega
  rcases hcases with h | ⟨hx, hy⟩ | ⟨hx, hy⟩
  · exact .inl (toBits_injective h)
  · exact .inr (.inl ⟨toBits_injective (hx.trans hz.symm), toBits_injective (hy.trans hn.symm)⟩)
  · exact .inr (.inr ⟨toBits_injective (hx.trans hn.symm), toBits_injective (hy.trans hz.symm)⟩)

/-- **Values of one rank have one sum**: their differences with a value are added to anything but the negative zero. -/
theorem add_sub_eq_of_rank_eq {s x y : Float} (base : Float) (hs : s ≠ -0) (h : rank x = rank y) :
    s + (x - base) = s + (y - base) := by
  have hzeros : s + (0 - base) = s + (-0 - base) := by
    rcases zero_sub_eq base with heq | ⟨hz, hn⟩
    · rw [heq]
    · rw [hz, hn]
      exact add_zero_eq hs
  rcases eq_or_zeros_of_rank_eq h with rfl | ⟨rfl, rfl⟩ | ⟨rfl, rfl⟩
  · rfl
  · exact hzeros
  · exact hzeros.symm

end ScoreDecoding.Double
