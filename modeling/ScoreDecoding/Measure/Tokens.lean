import ScoreDecoding.Measure.Basic
import ScoreDecoding.Token.Group

/-!
# Measures as tokens

A measure is written back as tokens, with the parts of an event in a fixed order: grace or tremolo, stem, pitches,
timewarp, division, dots, rest, beam, marks. A value that its table does not hold is left out.

- `Measure.tokens` writes a whole measure: its voices between the begin and the end of the measure, with a voice
  break before every voice but the first.
-/

namespace ScoreDecoding.Measure

/-- A pitch letter with its accidental and octave marks. -/
def Pitch.tokens (p : Pitch) : List Token :=
  p.letter :: (p.accidental.map Accidental.token).toList
    ++ List.replicate p.octaves.toInt.natAbs (if 0 < p.octaves then .octaveUp else .octaveDown)

/-- The token of a change of context; a time signature has two. -/
def Context.tokens : Context → List Token
  | .staff n => (ValueTable.staff.token? n.toNat).toList
  | .key k => (ValueTable.key.token? k.toInt).toList
  | .timeSignature r =>
    let fits (n : Int64) := Int32.minValue.toInt ≤ n.toInt && n.toInt ≤ Int32.maxValue.toInt
    if fits r.numerator && fits r.denominator then
      (ValueTable.beats.token? r.numerator.toInt).toList ++ (ValueTable.unit.token? r.denominator.toInt).toList
    else []
  | .clef t => [t]
  | .octaveShift t => [t]

/-- The timewarp, the division and the dots of an event. -/
def Duration.tokens (d : Duration) : List Token :=
  d.warpTag.toList ++ (ValueTable.division.token? d.division.toNat).toList ++ List.replicate d.dots.toNat .dot

/-- What stands before the stem of an event: grace goes before tremolo, and tremolo before tremolo cast. -/
def Event.onset (e : Event) : List Token :=
  if e.grace then [.grace]
  else match e.tremolo with
    | some n => (ValueTable.tremolo.token? n.toInt).toList
    | none => match e.tremoloCatcher with
      | some n => (ValueTable.tremoloCast.token? n.toInt).toList
      | none => []

/-- The token of a rest; an invisible rest goes before a visible one. -/
def Event.silence (e : Event) : List Token :=
  if e.space then [.space] else if e.rest then [.rest] else []

/-- An event, its parts in fixed order. -/
def Event.tokens (e : Event) : List Token :=
  e.onset ++ (e.stem.map Stem.token).toList ++ e.chord.flatMap Pitch.tokens
    ++ (e.duration.map Duration.tokens).getD [] ++ e.silence ++ (e.beam.map Beam.token).toList
    ++ e.marks.map Mark.token

/-- An event or a change of context. -/
def Term.tokens : Term → List Token
  | .event e => e.tokens
  | .context c => c.context.tokens

/-- The terms of a voice one after the other. -/
def Voice.tokens (v : Voice) : List Token := v.terms.flatMap Term.tokens

/-- The voices of a measure between its begin and its end, with breaks between them. -/
def tokens (m : Measure) : List Token := .bom :: [.vb].intercalate (m.voices.map Voice.tokens) ++ [.eom]

end ScoreDecoding.Measure
