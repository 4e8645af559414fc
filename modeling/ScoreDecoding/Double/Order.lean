/-!
# The order of doubles

The bits of a double are a sign and a magnitude, and doubles other than NaN are ordered as the signed magnitudes are.
Two orders are used: the total order of scores, in which the negative zero comes before the positive one, and the
order of values, in which both zeros are equal.

- `rank` is the signed magnitude and `totalRank` the place in the total order; both are integers, so that the orders
  are those of integers.
-/

namespace ScoreDecoding.Double

/-- The sign bit. -/
def signBit : Nat := 0x8000000000000000

/-- The bits of a double below the sign. -/
def magnitude (x : Float) : Nat := x.toBits.toNat % signBit

/-- Whether the sign bit is set. -/
def isNegative (x : Float) : Bool := signBit ≤ x.toBits.toNat

/-- The signed magnitude. Both zeros have rank zero. -/
def rank (x : Float) : Int := if isNegative x then -(magnitude x : Int) else magnitude x

/-- The place in the total order: as `rank`, with the negative zero below the positive one. -/
def totalRank (x : Float) : Int := if isNegative x then -(magnitude x : Int) - 1 else magnitude x

/-- The magnitude of infinity. Smaller magnitudes are finite. -/
def infinityMagnitude : Nat := 0x7ff0000000000000

/-- Whether a double is a number. -/
def isFinite (x : Float) : Bool := magnitude x < infinityMagnitude

/-- Whether a double is no number and not infinite. -/
def isNaN (x : Float) : Bool := infinityMagnitude < magnitude x

/-- The order of values: false if one side is NaN. -/
def lt (x y : Float) : Bool := !isNaN x && !isNaN y && rank x < rank y

/-- The order of values: false if one side is NaN. -/
def le (x y : Float) : Bool := !isNaN x && !isNaN y && rank x ≤ rank y

/-- The larger of two values; a NaN gives way to the other one. -/
def max (x y : Float) : Float := if lt x y || isNaN x then y else x

theorem rank_le_of_totalRank_le {x y : Float} (h : totalRank x ≤ totalRank y) : rank x ≤ rank y := by
  grind [totalRank, rank]

/-- Values that are compared are no NaN, and their ranks are. -/
theorem le_iff {x y : Float} : le x y = true ↔ isNaN x = false ∧ isNaN y = false ∧ rank x ≤ rank y := by
  simp [le, and_assoc]

theorem lt_iff {x y : Float} : lt x y = true ↔ isNaN x = false ∧ isNaN y = false ∧ rank x < rank y := by
  simp [lt, and_assoc]

theorem le_trans {x y z : Float} (hxy : le x y = true) (hyz : le y z = true) : le x z = true := by
  obtain ⟨hx, -, hxy⟩ := le_iff.1 hxy
  obtain ⟨-, hz, hyz⟩ := le_iff.1 hyz
  exact le_iff.2 ⟨hx, hz, Int.le_trans hxy hyz⟩

theorem lt_of_lt_of_le {x y z : Float} (hxy : lt x y = true) (hyz : le y z = true) : lt x z = true := by
  obtain ⟨hx, -, hxy⟩ := lt_iff.1 hxy
  obtain ⟨-, hz, hyz⟩ := le_iff.1 hyz
  exact lt_iff.2 ⟨hx, hz, Int.lt_of_lt_of_le hxy hyz⟩

theorem lt_irrefl (x : Float) : lt x x = false := by
  rw [Bool.eq_false_iff, ne_eq, lt_iff]
  exact fun h => Int.lt_irrefl _ h.2.2

/-- Finite values are not NaN. -/
theorem not_nan_of_finite {x : Float} (hx : isFinite x = true) : isNaN x = false := by
  simp only [isFinite, decide_eq_true_eq] at hx
  simp only [isNaN, decide_eq_false_iff_not]
  omega

theorem le_of_finite {x y : Float} (hx : isFinite x = true) (hy : isFinite y = true) :
    le x y = true ↔ rank x ≤ rank y := by
  rw [le_iff]
  simp [not_nan_of_finite hx, not_nan_of_finite hy]

theorem lt_of_finite {x y : Float} (hx : isFinite x = true) (hy : isFinite y = true) :
    lt x y = true ↔ rank x < rank y := by
  rw [lt_iff]
  simp [not_nan_of_finite hx, not_nan_of_finite hy]

/-- Of two finite values that are not below each other, the second is no larger. -/
theorem le_of_not_lt {x y : Float} (hx : isFinite x = true) (hy : isFinite y = true) (h : lt x y = false) :
    le y x = true := by
  rw [Bool.eq_false_iff, ne_eq, lt_of_finite hx hy] at h
  rw [le_of_finite hy hx]
  omega

theorem le_of_not_le {x y : Float} (hx : isFinite x = true) (hy : isFinite y = true) (h : le x y = false) :
    le y x = true := by
  rw [Bool.eq_false_iff, ne_eq, le_of_finite hx hy] at h
  rw [le_of_finite hy hx]
  omega

end ScoreDecoding.Double
