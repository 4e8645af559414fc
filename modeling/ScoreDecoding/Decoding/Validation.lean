import ScoreDecoding.Decoding.Dialogue
import ScoreDecoding.Decoding.Error
import ScoreDecoding.Token.Text

/-!
# Questions to the validator

A sequence is handed to the validator as text, closed with the end of the measure.

- `validate` gives the measure of a sequence, `probeTail` the state in which an open sequence ends, and
  `isTimewarpInvalid` what a voice that has just ended is asked for.
-/

namespace ScoreDecoding.Validation

/-- The measure of a sequence with a last token, if there is one. -/
def validate (ts : List Token) (tail : Option Token) : Dialogue (Except DecodingError Measure) :=
  (Dialogue.parse (Token.code ts tail)).map fun
    | .ok measure => .ok measure
    | .error reason => .error (.validator (Token.code ts tail) reason)

/-- The state of a sequence as if it ended here. -/
def probeTail (ts : List Token) : Dialogue (Except DecodingError TailStatus) :=
  (validate ts (some .eom)).map fun answer => answer.map (·.tail)

/-- The measure of a sequence that ends with a voice. A voice break at the end is read as the end of the measure. -/
def validateEnded (ts : List Token) : Dialogue (Except DecodingError Measure) :=
  if ts.getLast? = some .vb then validate ts.dropLast (some .eom) else validate ts none

/-- Whether a sequence that ends with a voice has a timewarp that is broken. -/
def isTimewarpInvalid (ts : List Token) : Dialogue (Except DecodingError Bool) :=
  (validateEnded ts).map fun answer => answer.map (·.tail.invalidTimewarp)

end ScoreDecoding.Validation
