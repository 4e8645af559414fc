import ScoreDecoding.Measure.Basic
import ScoreDecoding.Token.Group
import ScoreDecoding.Double.Order

/-!
# Padding of short voices

The voices of a measure are filled up with invisible rests until all are as long as the longest one.

- `Measure.ticks` is the length of the longest voice;
- `Measure.padding` gives the rests of each voice. Where no division fits what is missing, there are none.
-/

namespace ScoreDecoding.Measure

/-- The length of the longest voice, if a whole note has so many ticks. It is zero at least. -/
def ticks (m : Measure) (whole : Float) : Float :=
  (m.voices.map fun v => whole * v.eventsTime.value).foldl Double.max 0

/-- The first of the greatest ratios of a list that starts with `r`. -/
def longest (r : Ratio) (rs : List Ratio) : Ratio := rs.foldl (fun r s => if r.value < s.value then s else r) r

/-- The division of which a whole note has so many. -/
def divisionOf? (n : Int64) : Option Token :=
  (ValueTable.division.find? fun entry => ((1 <<< entry.1.toNat : Nat) : Int) == n.toInt).map (·.2)

/-- Invisible rests for a time that is missing. -/
def rests (missing : Ratio) : List Token :=
  if missing.numerator ≤ 0 then []
  else match divisionOf? missing.denominator with
    | some division => (List.replicate missing.numerator.toInt.toNat [.pitchA, division, .space]).flatten
    | none => []

/-- The invisible rests that each voice needs beside the longest one. A measure with one voice has one entry, and so
has a measure without voices. -/
def padding (m : Measure) : List (List Token) :=
  match m.voices.map (·.eventsTime) with
  | first :: second :: times =>
    (first :: second :: times).map fun t => rests (longest first (second :: times) - t)
  | _ => [[]]

end ScoreDecoding.Measure
