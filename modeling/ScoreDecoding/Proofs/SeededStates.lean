import Mathlib.Logic.Function.Iterate
import ScoreDecoding.Random

/-!
# The states of seeded generators

A generator whose state is zero stays there and gives zeros for ever. No seed leads to that state, however many words
are taken, and generators of two seeds are never in the same state: seeding is injective and so is the step from a state
to the next.

- a shift that is added to a word can be undone (`xor_shiftRight_injective`, `xor_shiftLeft_injective`), as can a
  multiplication by a unit and a rotation, so that `mix_injective` and `advance_injective`;
- `distinct_after_ofSeed`: the states after any number of words.
-/

namespace ScoreDecoding.Random

open Function

/-! ## Words -/

/-- What is additive and takes only zero to zero is injective. Addition is that of bits. -/
theorem injective_of_xor {f : UInt64 → UInt64} (hadd : ∀ x y, f (x ^^^ y) = f x ^^^ f y)
    (hzero : ∀ x, f x = 0 → x = 0) : Injective f := by
  intro x y h
  refine UInt64.xor_eq_zero_iff.1 (hzero _ ?_)
  rw [hadd, h, UInt64.xor_self]

/-- Only zero is left as it is by a shift to the right. -/
theorem eq_zero_of_shiftRight {x k : UInt64} (hk : 0 < k.toNat % 64) (h : x >>> k = x) : x = 0 := by
  have hx := congrArg UInt64.toNat h
  rw [UInt64.toNat_shiftRight, Nat.shiftRight_eq_div_pow] at hx
  by_contra hne
  have hpos : 0 < x.toNat := Nat.pos_of_ne_zero fun h0 => hne (UInt64.toNat_inj.1 h0)
  exact absurd hx (Nat.ne_of_lt (Nat.div_lt_self hpos (Nat.one_lt_two_pow (Nat.ne_of_gt hk))))

/-- Only zero is left as it is by a shift to the left. -/
theorem eq_zero_of_shiftLeft {x k : UInt64} (hk : 0 < k.toNat % 64) (h : x <<< k = x) : x = 0 := by
  have hx := congrArg UInt64.toBitVec h
  rw [UInt64.toBitVec_shiftLeft, BitVec.shiftLeft_eq', BitVec.toNat_umod] at hx
  change 0 < k.toBitVec.toNat % (64 : BitVec 64).toNat at hk
  generalize k.toBitVec.toNat % (64 : BitVec 64).toNat = n at hk hx
  -- from the lowest bit on, each bit is that of a place further down
  have hbits : ∀ i, x.toBitVec.getLsbD i = false := by
    intro i
    induction i using Nat.strongRecOn with
    | ind i ih =>
      rw [← hx, BitVec.getLsbD_shiftLeft]
      by_cases hi : i < n
      · simp [hi]
      · rw [ih _ (by omega), Bool.and_false]
  refine UInt64.toBitVec_inj.1 (BitVec.eq_of_getLsbD_eq fun i _ => ?_)
  rw [hbits]
  exact BitVec.getLsbD_zero.symm

theorem xor_shiftRight_injective {k : UInt64} (hk : 0 < k.toNat % 64) :
    Injective fun x : UInt64 => x ^^^ (x >>> k) := by
  refine injective_of_xor (fun x y => ?_) fun x h => eq_zero_of_shiftRight hk (UInt64.xor_eq_zero_iff.1 h).symm
  rw [UInt64.shiftRight_xor]
  ac_rfl

theorem xor_shiftLeft_injective {k : UInt64} (hk : 0 < k.toNat % 64) :
    Injective fun x : UInt64 => x ^^^ (x <<< k) := by
  refine injective_of_xor (fun x y => ?_) fun x h => eq_zero_of_shiftLeft hk (UInt64.xor_eq_zero_iff.1 h).symm
  rw [UInt64.shiftLeft_xor]
  ac_rfl

theorem mul_injective {c d : UInt64} (h : c * d = 1) : Injective (· * c) := by
  intro x y hxy
  have hcd := congrArg (· * d) hxy
  simpa only [UInt64.mul_assoc, h, UInt64.mul_one] using hcd

theorem getLsbD_rotateLeft (x : UInt64) {i : Nat} (hi : i < 64) :
    (rotateLeft x 45).toBitVec.getLsbD i = x.toBitVec.getLsbD (if i < 45 then i + 19 else i - 45) := by
  have hwords : (rotateLeft x 45).toBitVec = x.toBitVec <<< 45 ||| x.toBitVec >>> 19 := rfl
  rw [hwords, BitVec.getLsbD_or, BitVec.getLsbD_shiftLeft, BitVec.getLsbD_ushiftRight]
  split
  · rename_i h
    simp [h, Nat.add_comm]
  · rename_i h
    simp [h, hi, BitVec.getLsbD_of_ge x.toBitVec (19 + i) (by omega)]

/-- A rotation only moves the bits. -/
theorem rotateLeft_injective : Injective (rotateLeft · 45) := by
  intro x y h
  refine UInt64.toBitVec_inj.1 (BitVec.eq_of_getLsbD_eq fun i hi => ?_)
  have hbit (j : Nat) := congrArg (fun w : UInt64 => w.toBitVec.getLsbD j) h
  by_cases hlow : i < 19
  · simpa [getLsbD_rotateLeft _ (show i + 45 < 64 by omega), Nat.not_lt.2 (Nat.le_add_left 45 i)] using hbit (i + 45)
  · simpa [getLsbD_rotateLeft _ (show i - 19 < 64 by omega), show i - 19 < 45 by omega,
      Nat.sub_add_cancel (Nat.le_of_not_lt hlow)] using hbit (i - 19)

/-! ## Seeds -/

/-- **The mixing of a word can be undone.** -/
theorem mix_injective : Injective mix := by
  have hfirst : Injective fun z : UInt64 => (z ^^^ (z >>> 30)) * 0xbf58476d1ce4e5b9 :=
    (mul_injective (d := 0x96de1b173f119089) (by decide)).comp (xor_shiftRight_injective (by decide))
  have hsecond : Injective fun z : UInt64 => (z ^^^ (z >>> 27)) * 0x94d049bb133111eb :=
    (mul_injective (d := 0x319642b2d24d8ec3) (by decide)).comp (xor_shiftRight_injective (by decide))
  exact (xor_shiftRight_injective (k := 31) (by decide)).comp (hsecond.comp hfirst)

/-- The state that is its own successor. -/
def zero : Random := ⟨0, 0, 0, 0⟩

theorem ofSeed_injective : Injective ofSeed := by
  intro a b h
  exact (UInt64.add_left_inj seedStep).1 (mix_injective (congrArg s0 h))

/-- Two neighbouring words of the seeding sequence are not both zero. -/
theorem ofSeed_ne_zero (seed : UInt64) : ofSeed seed ≠ zero := by
  intro h
  have hmix : mix 0 = 0 := by decide
  have h0 : seed + seedStep = 0 := mix_injective ((congrArg s0 h).trans hmix.symm)
  have h1 : seed + 2 * seedStep = 0 := mix_injective ((congrArg s1 h).trans hmix.symm)
  have hstep : seedStep = 2 * seedStep := (UInt64.add_right_inj seed).1 (h0.trans h1.symm)
  exact absurd hstep (by decide)

/-! ## Steps -/

/-- **The step to the next state can be undone.** -/
theorem advance_injective : Injective advance := by
  rintro ⟨a, b, c, d⟩ ⟨a', b', c', d'⟩ h
  simp only [advance, mk.injEq] at h
  obtain ⟨h0, h1, h2, h3⟩ := h
  have hbd : d ^^^ b = d' ^^^ b' := rotateLeft_injective h3
  obtain rfl : a = a' := by
    rw [UInt64.xor_assoc, UInt64.xor_assoc, hbd] at h0
    exact (UInt64.xor_left_inj _).1 h0
  have hbc : b ^^^ c = b' ^^^ c' := (UInt64.xor_left_inj a).1 h1
  obtain rfl : b = b' := by
    -- what the second and the third word have in common cancels
    have hcancel : ∀ b c : UInt64, (b ^^^ c) ^^^ (c ^^^ a ^^^ (b <<< 17)) = (b ^^^ (b <<< 17)) ^^^ a := fun b c => by
      calc (b ^^^ c) ^^^ (c ^^^ a ^^^ (b <<< 17)) = (c ^^^ c) ^^^ ((b ^^^ (b <<< 17)) ^^^ a) := by ac_rfl
        _ = (b ^^^ (b <<< 17)) ^^^ a := by rw [UInt64.xor_self, UInt64.zero_xor]
    have hsum : (b ^^^ (b <<< 17)) ^^^ a = (b' ^^^ (b' <<< 17)) ^^^ a := by
      rw [← hcancel b c, ← hcancel b' c', hbc, h2]
    exact xor_shiftLeft_injective (k := 17) (by decide) ((UInt64.xor_left_inj a).1 hsum)
  obtain rfl : c = c' := (UInt64.xor_right_inj b).1 hbc
  obtain rfl : d = d' := (UInt64.xor_left_inj b).1 hbd
  rfl

/-- The state after a number of words. -/
def after (k : Nat) (r : Random) : Random := (fun r => r.next.2)^[k] r

theorem after_injective (k : Nat) : Injective (after k) := advance_injective.iterate k

/-- From the state of zeros there is no way out. -/
theorem next_zero : zero.next = (0, zero) := by decide

theorem after_zero (k : Nat) : after k zero = zero := iterate_fixed (congrArg Prod.snd next_zero) k

/-- **The states of seeded generators** are never that in which all words are zero, which gives zeros and stays, and
those of two seeds are never the same, after any number of words. -/
theorem distinct_after_ofSeed (k : Nat) (a b : UInt64) :
    zero.next = (0, zero) ∧ after k (ofSeed a) ≠ zero ∧ (after k (ofSeed a) = after k (ofSeed b) ↔ a = b) := by
  refine ⟨next_zero, fun h => ?_, fun h => ?_, ?_⟩
  · exact ofSeed_ne_zero a (after_injective k (h.trans (after_zero k).symm))
  · exact ofSeed_injective (after_injective k h)
  · rintro rfl
    rfl

end ScoreDecoding.Random
