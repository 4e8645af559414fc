import ScoreDecoding.Token.Basic

/-!
# Voices of a sequence

A sequence is read as the begin of a measure, voices with a voice break between them, and the end of the measure; the
end may be missing.

- `Voices.split` gives the voices that are not empty, and `Voices.join` closes each of them again;
- `Voices.complete` keeps the voices that were finished.
-/

namespace ScoreDecoding.Voices

/-- What a sequence holds between the begin of the measure, if it has one, and its last token. -/
def body : List Token → List Token
  | .bom :: ts => ts.dropLast
  | ts => ts.dropLast

/-- The voices of a sequence, without the begin of the measure, the last token and empty voices. -/
def split (ts : List Token) : List (List Token) := ((body ts).splitOn .vb).filter (!·.isEmpty)

/-- Closes each voice with a voice break, and the last one with the end of the measure. -/
def join : List (List Token) → List Token
  | [] => []
  | [v] => v ++ [.eom]
  | v :: vs => v ++ .vb :: join vs

/-- Takes the last voice away from a sequence that has no end, and closes what is left. Nothing is left of a sequence
with one voice; a sequence with an end stays as it is. -/
def complete (ts : List Token) : List Token :=
  if ts.getLast? = some .eom then ts
  else match (split ts).dropLast with
    | [] => []
    | vs => (if ts.head? = some .bom then [.bom] else []) ++ join vs

end ScoreDecoding.Voices
