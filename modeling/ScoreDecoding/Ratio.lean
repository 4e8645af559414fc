import ScoreDecoding.Double.Integer

/-!
# Ratios

A ratio of two words of 64 bits stands for a time signature, a tuplet or a duration. Parts may come as doubles with
rounding noise, so a ratio is reduced after its parts have been rounded to integers, and sums are formed on doubles.

- `Ratio.reduced` rounds two parts and cancels their common divisor; the denominator is made positive;
- `Ratio.add` and `Ratio.sub` work over the least common multiple of the denominators.
-/

namespace ScoreDecoding

/-- A ratio as it is given; it need not be in lowest terms. -/
structure Ratio where
  numerator : Int64
  denominator : Int64
  deriving DecidableEq, Repr

namespace Ratio

/-- Zero as a ratio in lowest terms. -/
def zero : Ratio := ⟨0, 1⟩

instance : Inhabited Ratio := ⟨zero⟩

/-- Rounds both parts and divides them by their common divisor. The denominator becomes positive, and zero has the
denominator one. -/
def reduced (numerator denominator : Float) : Ratio :=
  let flip := Double.round denominator < 0
  let n := if flip then -Double.round numerator else Double.round numerator
  let d := if flip then -Double.round denominator else Double.round denominator
  let g := if n == 0 then d else Double.gcd n.abs d
  let g := if g == 0 then 1 else g
  ⟨Double.toInt64 (n / g), Double.toInt64 (d / g)⟩

/-- The quotient of the two parts. -/
def value (r : Ratio) : Float := Double.ofInt64 r.numerator / Double.ofInt64 r.denominator

/-- Whether the numerator is zero. -/
def isZero (r : Ratio) : Bool := r.numerator == 0

/-- The sum, over the least common multiple of the denominators. -/
def add (r s : Ratio) : Ratio :=
  let d₁ := Double.ofInt64 r.denominator
  let d₂ := Double.ofInt64 s.denominator
  let d := Double.lcm d₁ d₂
  reduced (Double.ofInt64 r.numerator * d / d₁ + Double.ofInt64 s.numerator * d / d₂) d

/-- The ratio with the numerator negated. -/
def neg (r : Ratio) : Ratio := { r with numerator := -r.numerator }

/-- The sum with the negated ratio. -/
def sub (r s : Ratio) : Ratio := r.add s.neg

instance : Add Ratio := ⟨add⟩
instance : Neg Ratio := ⟨neg⟩
instance : Sub Ratio := ⟨sub⟩

/-- A value multiplied by a ratio, if there is one. -/
def scale (x : Float) : Option Ratio → Float
  | some r => x * Double.ofInt64 r.numerator / Double.ofInt64 r.denominator
  | none => x

/-- The two parts with a bar between them. -/
def text (r : Ratio) : String :=
  String.ofList (r.numerator.toInt.repr.toList ++ '/' :: r.denominator.toInt.repr.toList)

end Ratio

end ScoreDecoding
