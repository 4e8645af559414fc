/-!
# Doubles and integers

Rounding, truncation and the greatest common divisor, by exact arithmetic on the mantissa and the exponent of a
double.

- `round` goes to the nearest integer, a half away from zero; `isWhole` says that there is nothing to round;
- `toInt64` drops the fraction, and takes the nearest end of the range for a value outside;
- `gcd` is Euclid's algorithm with a remainder that has the sign of the dividend. Doubles that are not integers have
  the divisor one.
-/

namespace ScoreDecoding.Double

open Float.Model (UnpackedFloat)

/-- The double with the given sign whose magnitude is the natural number nearest to `n`. -/
def ofSigned (sign : UnpackedFloat.Sign) (n : Nat) : Float :=
  match sign with
  | .positive => Float.ofNat n
  | .negative => -Float.ofNat n

/-- The integer nearest to a double; a half goes away from zero. The sign is kept. -/
def round (x : Float) : Float :=
  match x.toModel.unpack with
  | .finite sign m e _ =>
    if 0 ≤ e then x
    else
      let unit := 1 <<< (-e).toNat
      ofSigned sign ((2 * m + unit) / (2 * unit))
  | _ => x

/-- The integer that is left of a finite double when its fraction is dropped. -/
def truncate (x : Float) : Int :=
  match x.toModel.unpack with
  | .finite sign m e _ =>
    let n := if 0 ≤ e then m <<< e.toNat else m >>> (-e).toNat
    sign.apply n
  | _ => 0

/-- Whether a double is an integer. -/
def isWhole (x : Float) : Bool :=
  match x.toModel.unpack with
  | .finite _ m e _ => 0 ≤ e || m % (1 <<< (-e).toNat) == 0
  | .zero _ => true
  | _ => false

/-- A double without its fraction as a word of 64 bits. Values outside the range go to its nearest end, and NaN goes
to zero. -/
def toInt64 (x : Float) : Int64 :=
  match x.toModel.unpack with
  | .infinity .positive => Int64.maxValue
  | .infinity .negative => Int64.minValue
  | _ => Int64.ofIntClamp (truncate x)

/-- The double nearest to a word. -/
def ofInt64 (n : Int64) : Float := Float.ofInt n.toInt

/-- Euclid's algorithm with a remainder that has the sign of the dividend: the last dividend. -/
def signedGcd (a b : Int) : Int :=
  if _h : b = 0 then a else signedGcd b (a.tmod b)
termination_by b.natAbs
decreasing_by
  have := Int.natAbs_tmod a b
  rw [this]
  exact Nat.mod_lt _ (by omega)

/-- The greatest common divisor of two doubles, with the sign of the last dividend. It is one if they are not both
integers. -/
def gcd (x y : Float) : Float :=
  if !isWhole x || !isWhole y then 1
  else if y == 0 then x
  else Float.ofInt (signedGcd (truncate x) (truncate y))

/-- The least common multiple of two doubles: their product over `gcd`, or zero if that is zero. -/
def lcm (x y : Float) : Float :=
  let d := gcd x y
  if d == 0 then 0 else x * y / d

end ScoreDecoding.Double
