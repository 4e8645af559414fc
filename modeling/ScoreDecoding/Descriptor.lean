import ScoreDecoding.Text.LowerCase
import ScoreDecoding.Text.Words

/-!
# Descriptors

Words that describe a measure or a score. Predictors are conditioned on the ids that such words have in a vocabulary
of their own; descriptors never occur in a sequence of tokens.

- `Descriptor.ofWord?` reads a descriptor;
- `Descriptor.ofScore` describes a score by its measures;
- `Descriptor.idsOfPrompt` finds the words of a prompt in a vocabulary.
-/

namespace ScoreDecoding

/-- A word that describes a measure. -/
inductive Descriptor
  | singleStaff | doubleStaff | tripleStaff
  | polyVoice | monoVoice
  | rhythm1 | rhythm2 | rhythm4 | rhythm8 | rhythm16 | rhythm32 | rhythm64
  | grace | noGrace | tremolo | noTremolo | timewarp | noTimewarp | dot | noDot | octaveShift | noOctaveShift
  | partialMeasure | fullMeasure
  | patched | complicated | crossStaves
  deriving DecidableEq, Repr

namespace Descriptor

/-- Every descriptor. -/
def all : List Descriptor := [
  singleStaff, doubleStaff, tripleStaff, polyVoice, monoVoice, rhythm1, rhythm2, rhythm4, rhythm8, rhythm16,
  rhythm32, rhythm64, grace, noGrace, tremolo, noTremolo, timewarp, noTimewarp, dot, noDot, octaveShift,
  noOctaveShift, partialMeasure, fullMeasure, patched, complicated, crossStaves]

/-- The written form of a descriptor. -/
def word : Descriptor → String
  | singleStaff => "#single-staff"
  | doubleStaff => "#double-staff"
  | tripleStaff => "#triple-staff"
  | polyVoice => "#polyvoice"
  | monoVoice => "#monovoice"
  | rhythm1 => "#1st-rhythm"
  | rhythm2 => "#2nd-rhythm"
  | rhythm4 => "#4th-rhythm"
  | rhythm8 => "#8th-rhythm"
  | rhythm16 => "#16th-rhythm"
  | rhythm32 => "#32th-rhythm"
  | rhythm64 => "#64th-rhythm"
  | grace => "#grace"
  | noGrace => "#non-grace"
  | tremolo => "#tremolo"
  | noTremolo => "#non-tremolo"
  | timewarp => "#timewarp"
  | noTimewarp => "#non-timewarp"
  | dot => "#dot"
  | noDot => "#non-dot"
  | octaveShift => "#octave-shift"
  | noOctaveShift => "#non-octave-shift"
  | partialMeasure => "#partial"
  | fullMeasure => "#full"
  | patched => "#patched"
  | complicated => "#complicated"
  | crossStaves => "#cross-staves"

/-- The descriptor with a written form. -/
def ofWord? (s : String) : Option Descriptor := all.find? (·.word == s)

/-- The descriptors of a score: the widest layout of staves, whether one measure has several voices, and whether more
than a fifth of the measures are complicated. -/
def ofScore (measures : List (List Descriptor)) : List Descriptor :=
  let occurs (d : Descriptor) : Bool := measures.any (·.contains d)
  let staves := if occurs tripleStaff then tripleStaff else if occurs doubleStaff then doubleStaff else singleStaff
  let voices := if occurs polyVoice then polyVoice else monoVoice
  let complicatedCount := measures.countP (·.contains complicated)
  [staves, voices] ++ if measures.length < 5 * complicatedCount then [complicated] else []

/-- The ids of the words of a prompt. Words are compared in lower case with the entries of a vocabulary; unknown words
and the entry with id zero are dropped. -/
def idsOfPrompt (vocabulary : List String) (prompt : String) : List Nat :=
  ((Text.words prompt.toList).filterMap fun w => vocabulary.idxOf? (String.ofList (Text.lowerCase w))).filter (0 < ·)

end Descriptor

end ScoreDecoding
