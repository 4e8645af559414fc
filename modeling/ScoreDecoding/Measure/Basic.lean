import ScoreDecoding.Token.Basic
import ScoreDecoding.Ratio

/-!
# Measures

What a grammar validator makes of a token sequence: the key and time signature of a measure, its voices, and the
state in which the sequence ends. A voice is a list of terms; a term is an event (a chord, a rest or an invisible
rest) or a change of context, which holds for the rest of the voice.

- `Measure.Mark`, `Measure.Accidental`, ... are the signs of an event, each with its token;
- `TailStatus.isOverflowing`, `isFull` and `isPartial` read the filling of the last voice.
-/

namespace ScoreDecoding

namespace Measure

/-- An alteration of a pitch letter. -/
inductive Accidental
  | sharp | flat | doubleSharp | doubleFlat
  deriving DecidableEq, Repr

/-- The token of an accidental. -/
def Accidental.token : Accidental → Token
  | .sharp => .sharp
  | .flat => .flat
  | .doubleSharp => .doubleSharp
  | .doubleFlat => .doubleFlat

/-- The side of a beam that an event carries. -/
inductive Beam
  | opening | closing
  deriving DecidableEq, Repr

/-- The token of a beam side. -/
def Beam.token : Beam → Token
  | .opening => .beamOpen
  | .closing => .beamClose

/-- A stem that is written in the sequence. -/
inductive Stem
  | up | down
  deriving DecidableEq, Repr

/-- The token of a written stem. -/
def Stem.token : Stem → Token
  | .up => .stemUp
  | .down => .stemDown

/-- The direction in which a stem is engraved. -/
inductive StemDirection
  | up | down | free
  deriving DecidableEq, Repr

/-- An expressive mark. -/
inductive Mark
  | slurOpen | slurClose | tie | arpeggio | trill | fermata | shortFermata | staccato | staccatissimo | accent
  | mordent | prall | turn | portato | tenuto | marcato | crescendo | diminuendo | hairpinStop
  | forte | piano | mezzo | rinforzando | sforzando | zeta
  deriving DecidableEq, Repr

/-- The token of a mark. -/
def Mark.token : Mark → Token
  | .slurOpen => .slurOpen
  | .slurClose => .slurClose
  | .tie => .tie
  | .arpeggio => .arpeggio
  | .trill => .trill
  | .fermata => .fermata
  | .shortFermata => .shortFermata
  | .staccato => .staccato
  | .staccatissimo => .staccatissimo
  | .accent => .accent
  | .mordent => .mordent
  | .prall => .prall
  | .turn => .turn
  | .portato => .portato
  | .tenuto => .tenuto
  | .marcato => .marcato
  | .crescendo => .crescendo
  | .diminuendo => .diminuendo
  | .hairpinStop => .hairpinStop
  | .forte => .forte
  | .piano => .piano
  | .mezzo => .mezzo
  | .rinforzando => .rinforzando
  | .sforzando => .sforzando
  | .zeta => .zeta

/-- One notehead. -/
structure Pitch where
  /-- The pitch letter. -/
  letter : Token
  accidental : Option Accidental := none
  /-- Octave marks, upward above zero. They count from the event before for the first pitch of a chord, and from the
  pitch below for the others. -/
  octaves : Int32 := 0
  /-- The absolute height. -/
  note : Int32 := 0
  deriving DecidableEq, Repr

/-- The written length of an event. -/
structure Duration where
  /-- The exponent: an event lasts one part in two to the exponent of a whole note. -/
  division : UInt8 := 0
  dots : UInt8 := 0
  timeWarp : Option Ratio := none
  /-- The timewarp token that is written before the division. -/
  warpTag : Option Token := none
  deriving DecidableEq, Repr

/-- A sounding or silent event. -/
structure Event where
  /-- The noteheads from the bottom. A rest has one pitch that marks its place. -/
  chord : List Pitch := []
  duration : Option Duration := none
  rest : Bool := false
  /-- Whether it is an invisible rest. -/
  space : Bool := false
  beam : Option Beam := none
  illBeam : Bool := false
  stem : Option Stem := none
  timeWarp : Option Ratio := none
  timeWarpEnd : Bool := false
  grace : Bool := false
  /-- The stroke exponent of a tremolo on one note. -/
  tremolo : Option Int32 := none
  /-- The stroke exponent on the first event of a tremolo between two. -/
  tremoloPitcher : Option Int32 := none
  /-- The stroke exponent on the second event of a tremolo between two. -/
  tremoloCatcher : Option Int32 := none
  staff : UInt8 := 0
  tick : Int64 := 0
  stemDirection : Option StemDirection := none
  marks : List Mark := []
  deriving DecidableEq, Repr

/-- What holds from a place of a voice on. -/
inductive Context
  | staff (number : UInt8)
  | key (fifths : Int32)
  | timeSignature (signature : Ratio)
  | clef (clef : Token)
  | octaveShift (shift : Token)
  deriving DecidableEq, Repr

/-- A change of context at its place. -/
structure ContextChange where
  context : Context
  staff : UInt8 := 0
  tick : Int64 := 0
  deriving DecidableEq, Repr

/-- One unit of a voice. -/
inductive Term
  | context (change : ContextChange)
  | event (event : Event)
  deriving DecidableEq, Repr

/-- The event of a term that is one. -/
def Term.event? : Term → Option Event
  | .event e => some e
  | .context _ => none

/-- A line of terms. -/
structure Voice where
  staff : UInt8 := 0
  octaveShiftIn : Option Token := none
  octaveShiftOut : Option Token := none
  headClef : Option Token := none
  terms : List Term := []
  /-- The time that the events fill, in whole notes. -/
  eventsTime : Ratio := .zero
  compensatedGraceTime : Option Ratio := none
  isPartial : Bool := false
  deriving DecidableEq, Repr

/-- The events of a voice, in order. -/
def Voice.events (v : Voice) : List Event := v.terms.filterMap Term.event?

end Measure

/-- The state in which a sequence ends. -/
structure TailStatus where
  /-- Whether a timewarp is open. -/
  timeWarping : Bool := false
  invalidTimewarp : Bool := false
  /-- Whether the open timewarp has not covered its span. -/
  incompleteTimeWarping : Bool := false
  beamOpen : Bool := false
  /-- Negative if the last voice is shorter than the measure, zero if it fills it, positive if it is longer. -/
  filling : Option Int8 := none
  emptyStaff : Bool := false
  /-- The chord of the last event. -/
  chord : Option (List Measure.Pitch) := none
  deriving DecidableEq, Repr

namespace TailStatus

/-- The last voice is longer than the measure. -/
def isOverflowing (s : TailStatus) : Bool := s.filling.any fun f => 0 < f

/-- The last voice fills the measure. -/
def isFull (s : TailStatus) : Bool := s.filling == some 0

/-- The last voice is shorter than the measure. -/
def isPartial (s : TailStatus) : Bool := s.filling.any fun f => f < 0

end TailStatus

/-- A measure as a grammar validator reads it. -/
structure Measure where
  key : Int32 := 0
  timeSignature : Ratio := .zero
  isPartial : Bool := false
  defaultCompensatedGraceTime : Ratio := .zero
  staffCount : UInt8 := 0
  voices : List Measure.Voice := []
  ill : Bool := false
  tail : TailStatus := {}
  descriptors : List String := []
  deriving DecidableEq, Repr

end ScoreDecoding
