import ScoreDecoding.Double.Zero

/-!
# Positive doubles

Sums of positive doubles are positive: none is so small that rounding takes it to zero, and one that is too large is
infinity, which is positive too. The difference of a finite double with itself is zero.

- `IsPositive` are the doubles above zero, infinity among them (`zero_lt_iff`, `IsPositive.not_le_zero`);
- `IsPositive.add` for sums, and `sub_self_eq` for the difference of a finite double with itself.
-/

namespace ScoreDecoding.Double

open Float.Model Float.Model.UnpackedFloat

/-! ## Values -/

/-- A value above zero. -/
inductive Above : UnpackedFloat → Prop
  | infinity : Above (.infinity .positive)
  | finite {mantissa : Nat} {exponent : Int} (hpos : 0 < mantissa) : Above (.finite .positive mantissa exponent hpos)

variable {u v : UnpackedFloat} {m : Nat} {e : Int} {x y : Float}

/-- Rounding keeps the sign. -/
theorem round_cases (sign : Sign) (m : Nat) (e : Int) :
    UnpackedFloat.round .binary64 sign m e = .zero sign ∨
      ∃ (n : Nat) (f : Int) (hpos : 0 < n), UnpackedFloat.round .binary64 sign m e = .finite sign n f hpos := by
  unfold UnpackedFloat.round roundWithAccuracy
  dsimp only
  split
  · exact .inl rfl
  · rename_i h
    exact .inr ⟨_, _, Nat.pos_of_ne_zero h, rfl⟩

theorem above_round (hm : 0 < m) (he : -1074 ≤ e) : Above (UnpackedFloat.round .binary64 .positive m e) := by
  have hrounded := rounded_round .positive hm he
  rcases round_cases .positive m e with h | ⟨n, f, hpos, h⟩
  · rw [h] at hrounded
    cases hrounded
  · rw [h]
    exact .finite hpos

/-- Fields that say neither zero nor NaN are those of a value with their sign. -/
theorem above_unpack {exponent : BitVec Format.binary64.exponentBits}
    {mantissa : BitVec Format.binary64.mantissaBitsWithoutImplicit} (hexponent : exponent ≠ -1#_)
    (hne : packComponents .binary64 .positive exponent mantissa ≠ packedZero .binary64 .positive) :
    Above (UnpackedFloat.unpack .binary64 (packComponents .binary64 .positive exponent mantissa)) := by
  unfold UnpackedFloat.unpack
  simp only [unpackExponent_packComponents, unpackMantissa_packComponents, unpackSign_packComponents, if_neg hexponent,
    Sign.ofBitVec_toBitVec]
  split
  · split
    · rename_i hzero hmantissa
      rw [hzero, hmantissa] at hne
      exact absurd rfl hne
    · exact .finite _
  · exact .finite _

/-- A positive value is packed to a positive one, or to infinity. -/
theorem above_unpack_pack (h : Rounded u) (hu : Above u) :
    Above (UnpackedFloat.unpack .binary64 (UnpackedFloat.pack .binary64 u)) := by
  have hne := pack_ne_of_rounded h .positive
  cases hu with
  | infinity => cases h
  | @finite m e hpos =>
    simp only [UnpackedFloat.pack] at hne ⊢
    split at hne
    · rename_i hlarge
      rw [if_pos hlarge]
      exact .infinity
    · rename_i hfits
      rw [if_neg hfits]
      split at hne
      · rename_i hnormal
        rw [if_pos hnormal]
        refine above_unpack (fun heq => hfits ?_) hne
        have hbiased := congrArg BitVec.toNat heq
        rw [BitVec.toNat_ofNat] at hbiased
        change (e + 1023 + 52).toNat % 2048 = 2047 at hbiased
        show 2048 ≤ (e + 1023 + 52).toNat + 1
        omega
      · rename_i hsmall
        rw [if_neg hsmall]
        exact above_unpack (by decide) hne

/-! ## Sums -/

theorem normalize_of_pos {k : Int} (hk : 0 < k) (sign : Sign) :
    UnpackedFloat.normalize .binary64 k e sign = UnpackedFloat.round .binary64 .positive k.toNat e := by
  unfold UnpackedFloat.normalize
  rw [Int.compare_eq_gt.2 hk]

theorem decreaseExponent_pos (hm : 0 < m) (E : Int) : 0 < (decreaseExponent m e E).1 := by
  show 0 < m <<< _
  rw [Nat.shiftLeft_eq]
  positivity

/-- What two positive values add up to, or a positive one and zero, is packed to a positive one. -/
theorem above_add (hu : Canonical u) (hv : Canonical v) (h : u = .zero .positive ∨ Above u) (hpos : Above v) :
    Above (UnpackedFloat.unpack .binary64 (UnpackedFloat.pack .binary64 (UnpackedFloat.add .binary64 u v))) := by
  have hinfinity : Above (UnpackedFloat.unpack .binary64 (UnpackedFloat.pack .binary64 (.infinity .positive))) :=
    .infinity
  rcases h with rfl | hupos
  · cases hpos with
    | infinity => exact hinfinity
    | finite hm => exact above_unpack_pack (rounded_of_canonical hv) (.finite hm)
  · cases hupos with
    | infinity => cases hpos <;> exact hinfinity
    | @finite m e hm =>
      cases hpos with
      | infinity => exact hinfinity
      | @finite m' e' hm' =>
        have he := le_min (exponent_le_of_canonical hu) (exponent_le_of_canonical hv)
        have hsum : (0 : Int) < (decreaseExponent m e (min e e')).1 + (decreaseExponent m' e' (min e e')).1 := by
          have := decreaseExponent_pos (e := e) hm (min e e')
          have := decreaseExponent_pos (e := e') hm' (min e e')
          omega
        have hadd : UnpackedFloat.add .binary64 (.finite .positive m e hm) (.finite .positive m' e' hm') =
            UnpackedFloat.round .binary64 .positive _ (min e e') := normalize_of_pos hsum .positive
        rw [hadd]
        exact above_unpack_pack (rounded_round .positive (by omega) he) (above_round (by omega) he)

/-! ## Doubles -/

/-- A double above zero. -/
def IsPositive (x : Float) : Prop := Above x.toModel.unpack

theorem zero_lt_iff : 0 < x ↔ IsPositive x := by
  have hunpack : 0 < x ↔ UnpackedFloat.lt (.zero .positive) x.toModel.unpack = true := by
    show decide (_ = true) = true ↔ _
    rw [decide_eq_true_iff]
    rfl
  rw [hunpack, IsPositive]
  generalize x.toModel.unpack = u
  constructor
  · intro h
    cases u with
    | notANumber => cases h
    | infinity sign => cases sign with
      | negative => cases h
      | positive => exact .infinity
    | zero sign => cases h
    | finite sign m e hm => cases sign with
      | negative => cases h
      | positive => exact .finite hm
  · intro h
    cases h <;> rfl

theorem IsPositive.not_le_zero (h : IsPositive x) : ¬ x ≤ 0 := by
  have hunpack : x ≤ 0 ↔ UnpackedFloat.le x.toModel.unpack (.zero .positive) = true := by
    show decide (_ = true) = true ↔ _
    rw [decide_eq_true_iff]
    rfl
  rw [hunpack]
  unfold IsPositive at h
  generalize x.toModel.unpack = u at h
  cases h <;> exact Bool.false_ne_true

/-- **Sums of positive doubles are positive.** -/
theorem IsPositive.add (hx : x = 0 ∨ IsPositive x) (hy : IsPositive y) : IsPositive (x + y) := by
  refine above_add (canonical_toModel x) (canonical_toModel y) (hx.imp ?_ id) hy
  rintro rfl
  rfl

/-! ## Differences -/

/-- A number is zero or has a mantissa. -/
theorem cases_of_isFinite (h : isFinite x = true) :
    (∃ sign, x.toModel.unpack = .zero sign) ∨ ∃ sign m e hm, x.toModel.unpack = .finite sign m e hm := by
  cases hc : x.toModel.unpack with
  | notANumber =>
    obtain rfl : x = 0 / 0 := unpack_injective hc
    exact absurd h (by decide)
  | infinity sign =>
    cases sign with
    | negative =>
      obtain rfl : x = -1 / 0 := unpack_injective hc
      exact absurd h (by decide)
    | positive =>
      obtain rfl : x = 1 / 0 := unpack_injective hc
      exact absurd h (by decide)
  | zero sign => exact .inl ⟨sign, rfl⟩
  | finite sign m e hm => exact .inr ⟨sign, m, e, hm, rfl⟩

/-- **The difference of a number with itself is zero**, and not the negative one. -/
theorem sub_self_eq (h : isFinite x = true) : x - x = 0 := by
  have hsub : x - x = ⟨pack (UnpackedFloat.sub .binary64 x.toModel.unpack x.toModel.unpack)⟩ := rfl
  rw [hsub]
  rcases cases_of_isFinite h with ⟨sign, hx⟩ | ⟨sign, m, e, hm, hx⟩
  · rw [hx]
    cases sign <;> rfl
  · have hzero : UnpackedFloat.sub .binary64 (.finite sign m e hm) (.finite sign m e hm) = .zero .positive := by
      show UnpackedFloat.normalize .binary64 (_ - _) _ .positive = _
      rw [Int.sub_self]
      rfl
    rw [hx, hzero]
    rfl

end ScoreDecoding.Double
