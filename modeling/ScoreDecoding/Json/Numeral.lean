/-!
# Numerals

A number of a JSON text, kept as it is written, and what it stands for.

- `Numeral.ofInt` writes an integer, and `Numeral.toInt?` reads it back (`toInt?_ofInt`);
- `Numeral.toFloat?` reads a double: leading digits are taken while they fit 64 bits, and the number they spell is
  multiplied or divided by one power of ten. A value beyond the doubles has no reading.
-/

namespace ScoreDecoding.Json

/-- A number as it is written. All lists hold decimal digits; a fraction or an exponent that is not written is
empty. -/
structure Numeral where
  negative : Bool := false
  whole : List Char := []
  fraction : List Char := []
  exponentNegative : Bool := false
  exponent : List Char := []
  deriving DecidableEq, Repr

namespace Numeral

/-- The number that decimal digits spell. -/
def spelled (digits : List Char) : Nat := Nat.ofDigitChars 10 digits 0

/-- An integer as it is written. -/
def ofInt (n : Int) : Numeral := { negative := decide (n < 0), whole := Nat.toDigits 10 n.natAbs }

/-- The characters of a numeral. -/
def chars (n : Numeral) : List Char :=
  (if n.negative then ['-'] else []) ++ n.whole
    ++ (if n.fraction = [] then [] else '.' :: n.fraction)
    ++ (if n.exponent = [] then [] else 'e' :: (if n.exponentNegative then '-' :: n.exponent else n.exponent))

/-- Whether the numeral has neither fraction nor exponent. -/
def isWhole (n : Numeral) : Bool := n.fraction.isEmpty && n.exponent.isEmpty

/-- The integer that a numeral stands for. A negative zero stands for a double only. -/
def toInt? (n : Numeral) : Option Int :=
  if n.isWhole then
    let m := spelled n.whole
    if n.negative then (if m = 0 then none else some (-m)) else some m
  else none

theorem toInt?_ofInt (n : Int) : (ofInt n).toInt? = some n := by
  have h : spelled (Nat.toDigits 10 n.natAbs) = n.natAbs := Nat.ofDigitChars_ten_toDigits
  have hw : (ofInt n).isWhole = true := rfl
  unfold toInt?
  simp only [hw, reduceIte, show (ofInt n).whole = Nat.toDigits 10 n.natAbs from rfl, h,
    show (ofInt n).negative = decide (n < 0) from rfl, decide_eq_true_eq]
  by_cases hn : n < 0
  · rw [if_pos hn, if_neg (by omega)]
    exact congrArg some (by omega)
  · rw [if_neg hn]
    exact congrArg some (by omega)

/-! ## Doubles -/

/-- Takes digits into a number while it fits 64 bits; gives the number and the digits left over. -/
def takeDigits (n : Nat) : List Char → Nat × List Char
  | [] => (n, [])
  | c :: cs =>
    let m := 10 * n + (c.toNat - '0'.toNat)
    if m < UInt64.size then takeDigits m cs else (n, c :: cs)

/-- The largest exponent of a power of ten among the doubles. -/
def maxPower : Nat := 308

/-- The double nearest to a power of ten. -/
def powerOfTen (e : Nat) : Float := Float.ofScientific 1 false e

/-- A double scaled by a power of ten. Below the range of the powers the scaling takes two steps, and a value that
two steps do not reach is zero. Nothing is given for a value beyond the doubles. -/
def scale? (x : Float) (e : Int) : Option Float :=
  if 0 ≤ e then
    if e.toNat ≤ maxPower then
      let y := x * powerOfTen e.toNat
      if y.isInf then none else some y
    else if x == 0 then some x else none
  else
    let d := (-e).toNat
    if d ≤ maxPower then some (x / powerOfTen d)
    else if d ≤ 2 * maxPower then some (x / powerOfTen maxPower / powerOfTen (d - maxPower))
    else some 0

/-- The double that a numeral stands for. -/
def toFloat? (n : Numeral) : Option Float :=
  let (wholePart, dropped) := takeDigits 0 n.whole
  let (significand, unused) := takeDigits wholePart n.fraction
  let shift : Int := dropped.length - (n.fraction.length - unused.length : Nat)
  let e : Int := spelled n.exponent
  let value := scale? (Float.ofNat significand) (shift + if n.exponentNegative then -e else e)
  value.map fun x => if n.negative then -x else x

end Numeral

end ScoreDecoding.Json
