import ScoreDecoding.Measure.Basic
import ScoreDecoding.Token.Json

/-!
# Measures as JSON

The form in which a grammar validator answers. Every field of a measure, a voice, an event and a status may be
missing; unknown fields are ignored. A term is a change of context if it can be read as one, and else an event; in it
nothing may be unreadable, also not in fields that are ignored.

- `Measure.read?` reads a measure from a text and `Measure.text` writes it.
-/

namespace ScoreDecoding

/-- How many brackets of a text may be open at once where a term is read. -/
def Json.maxDepth : Nat := 127

namespace Ratio

/-- A ratio with its parts as they are. -/
def toJson (r : Ratio) : Json :=
  .object [("numerator", .int r.numerator.toInt), ("denominator", .int r.denominator.toInt)]

/-- Reads a ratio, of which both parts must be given. It is not reduced. -/
def ofJson? (j : Json) : Option Ratio := do
  let r ← j.record? ["numerator", "denominator"]
  let numerator ← r.required "numerator" Json.int64?
  let denominator ← r.required "denominator" Json.int64?
  return ⟨numerator, denominator⟩

end Ratio

namespace Measure

/-! ## Signs -/

namespace Accidental

/-- The name of an accidental. -/
def label : Accidental → String
  | .sharp => "s"
  | .flat => "f"
  | .doubleSharp => "ss"
  | .doubleFlat => "ff"

/-- The accidental with a name. -/
def ofLabel? (s : String) : Option Accidental :=
  [sharp, flat, doubleSharp, doubleFlat].find? (·.label == s)

end Accidental

namespace Beam

/-- The name of a beam side. -/
def label (b : Beam) : String := b.token.name

/-- The beam side with a name. -/
def ofLabel? (s : String) : Option Beam := [opening, closing].find? (·.label == s)

end Beam

namespace Stem

/-- The name of a written stem. -/
def label (s : Stem) : String := s.token.name

/-- The written stem with a name. -/
def ofLabel? (s : String) : Option Stem := [up, down].find? (·.label == s)

end Stem

namespace StemDirection

/-- The name of a stem direction. -/
def label : StemDirection → String
  | .up => "u"
  | .down => "d"
  | .free => "-"

/-- The stem direction with a name. -/
def ofLabel? (s : String) : Option StemDirection := [up, down, free].find? (·.label == s)

end StemDirection

namespace Mark

/-- Every mark. -/
def all : List Mark := [
  slurOpen, slurClose, tie, arpeggio, trill, fermata, shortFermata, staccato, staccatissimo, accent, mordent, prall,
  turn, portato, tenuto, marcato, crescendo, diminuendo, hairpinStop, forte, piano, mezzo, rinforzando, sforzando,
  zeta]

/-- The name of a mark. -/
def label : Mark → String
  | .slurOpen => "slurL"
  | .slurClose => "slurR"
  | .tie => "tie"
  | .arpeggio => "arp"
  | .trill => "tr"
  | .fermata => "fer"
  | .shortFermata => "sf"
  | .staccato => "st"
  | .staccatissimo => "stm"
  | .accent => "ac"
  | .mordent => "mor"
  | .prall => "pr"
  | .turn => "turn"
  | .portato => "por"
  | .tenuto => "ten"
  | .marcato => "mar"
  | .crescendo => "cre"
  | .diminuendo => "dim"
  | .hairpinStop => "cds"
  | .forte => "Df"
  | .piano => "Dp"
  | .mezzo => "Dm"
  | .rinforzando => "Dr"
  | .sforzando => "Ds"
  | .zeta => "Dz"

/-- The mark with a name. -/
def ofLabel? (s : String) : Option Mark := all.find? (·.label == s)

end Mark

/-! ## Writing -/

/-- A notehead with all its fields. -/
def Pitch.toJson (p : Pitch) : Json := .object [
  ("phonet", p.letter.toJson),
  ("acc", .ofOption (.text ·.label) p.accidental),
  ("octaves", .int p.octaves.toInt),
  ("note", .int p.note.toInt)]

/-- A written length with all its fields. -/
def Duration.toJson (d : Duration) : Json := .object [
  ("division", .nat d.division.toNat),
  ("dots", .nat d.dots.toNat),
  ("timeWarp", .ofOption Ratio.toJson d.timeWarp),
  ("tw", .ofOption Token.toJson d.warpTag)]

/-- An event with all its fields. -/
def Event.toJson (e : Event) : Json := .object [
  ("chord", .arr (e.chord.map Pitch.toJson)),
  ("duration", .ofOption Duration.toJson e.duration),
  ("rest", .bool e.rest),
  ("space", .bool e.space),
  ("beam", .ofOption (.text ·.label) e.beam),
  ("illBeam", .bool e.illBeam),
  ("stem", .ofOption (.text ·.label) e.stem),
  ("timeWarp", .ofOption Ratio.toJson e.timeWarp),
  ("timeWarpEnd", .bool e.timeWarpEnd),
  ("grace", .bool e.grace),
  ("tremolo", .ofOption (.int ·.toInt) e.tremolo),
  ("tremoloPitcher", .ofOption (.int ·.toInt) e.tremoloPitcher),
  ("tremoloCatcher", .ofOption (.int ·.toInt) e.tremoloCatcher),
  ("staff", .nat e.staff.toNat),
  ("tick", .int e.tick.toInt),
  ("stemDirection", .ofOption (.text ·.label) e.stemDirection),
  ("marks", .arr (e.marks.map (.text ·.label)))]

/-- A context as an object with one member, which tells its kind. -/
def Context.toJson : Context → Json
  | .staff n => .object [("staff", .nat n.toNat)]
  | .key k => .object [("key", .int k.toInt)]
  | .timeSignature r => .object [("timeSig", r.toJson)]
  | .clef t => .object [("clef", t.toJson)]
  | .octaveShift t => .object [("octaveShift", t.toJson)]

/-- A change of context with its place. -/
def ContextChange.toJson (c : ContextChange) : Json := .object [
  ("context", c.context.toJson), ("staff", .nat c.staff.toNat), ("tick", .int c.tick.toInt)]

/-- A term without a sign of its kind. -/
def Term.toJson : Term → Json
  | .context c => c.toJson
  | .event e => e.toJson

/-- A voice with all its fields. -/
def Voice.toJson (v : Voice) : Json := .object [
  ("staff", .nat v.staff.toNat),
  ("octaveShiftIn", .ofOption Token.toJson v.octaveShiftIn),
  ("octaveShiftOut", .ofOption Token.toJson v.octaveShiftOut),
  ("headClef", .ofOption Token.toJson v.headClef),
  ("terms", .arr (v.terms.map Term.toJson)),
  ("eventsTime", v.eventsTime.toJson),
  ("compensatedGraceTime", .ofOption Ratio.toJson v.compensatedGraceTime),
  ("partial", .bool v.isPartial)]

end Measure

/-- A status with all its fields. -/
def TailStatus.toJson (s : TailStatus) : Json := .object [
  ("timeWarping", .bool s.timeWarping),
  ("invalidTimewarp", .bool s.invalidTimewarp),
  ("incompleteTimeWarping", .bool s.incompleteTimeWarping),
  ("beamOpen", .bool s.beamOpen),
  ("filling", .ofOption (.int ·.toInt) s.filling),
  ("emptyStaff", .bool s.emptyStaff),
  ("chord", .ofOption (fun chord => .arr (chord.map Measure.Pitch.toJson)) s.chord)]

/-- A measure with all its fields. -/
def Measure.toJson (m : Measure) : Json := .object [
  ("key", .int m.key.toInt),
  ("timeSig", m.timeSignature.toJson),
  ("isPartial", .bool m.isPartial),
  ("defaultCompensatedGraceTime", m.defaultCompensatedGraceTime.toJson),
  ("staffN", .nat m.staffCount.toNat),
  ("voices", .arr (m.voices.map Voice.toJson)),
  ("ill", .bool m.ill),
  ("tailStatus", m.tail.toJson),
  ("descriptors", .arr (m.descriptors.map Json.text))]

/-! ## Reading -/

namespace Measure

open Json (bool? uint8? int8? int32? int64? nullable? list? choice?)

/-- Reads a notehead, of which the pitch letter must be given. Any token is taken for one. -/
def Pitch.ofJson? (j : Json) : Option Pitch := do
  let r ← j.record? ["phonet", "acc", "octaves", "note"]
  return {
    letter := ← r.required "phonet" Token.ofJson?
    accidental := ← r.withDefault "acc" (nullable? (choice? Accidental.ofLabel?)) none
    octaves := ← r.withDefault "octaves" int32? 0
    note := ← r.withDefault "note" int32? 0 }

/-- Reads a written length. -/
def Duration.ofJson? (j : Json) : Option Duration := do
  let r ← j.record? ["division", "dots", "timeWarp", "tw"]
  return {
    division := ← r.withDefault "division" uint8? 0
    dots := ← r.withDefault "dots" uint8? 0
    timeWarp := ← r.withDefault "timeWarp" (nullable? Ratio.ofJson?) none
    warpTag := ← r.withDefault "tw" (nullable? Token.ofJson?) none }

/-- The names of the fields of an event, in order. -/
def Event.fields : List String := [
  "chord", "duration", "rest", "space", "beam", "illBeam", "stem", "timeWarp", "timeWarpEnd", "grace", "tremolo",
  "tremoloPitcher", "tremoloCatcher", "staff", "tick", "stemDirection", "marks"]

/-- Reads an event; every field may be missing. -/
def Event.ofJson? (j : Json) : Option Event := do
  let r ← j.record? Event.fields
  return {
    chord := ← r.withDefault "chord" (list? Pitch.ofJson?) []
    duration := ← r.withDefault "duration" (nullable? Duration.ofJson?) none
    rest := ← r.withDefault "rest" bool? false
    space := ← r.withDefault "space" bool? false
    beam := ← r.withDefault "beam" (nullable? (choice? Beam.ofLabel?)) none
    illBeam := ← r.withDefault "illBeam" bool? false
    stem := ← r.withDefault "stem" (nullable? (choice? Stem.ofLabel?)) none
    timeWarp := ← r.withDefault "timeWarp" (nullable? Ratio.ofJson?) none
    timeWarpEnd := ← r.withDefault "timeWarpEnd" bool? false
    grace := ← r.withDefault "grace" bool? false
    tremolo := ← r.withDefault "tremolo" (nullable? int32?) none
    tremoloPitcher := ← r.withDefault "tremoloPitcher" (nullable? int32?) none
    tremoloCatcher := ← r.withDefault "tremoloCatcher" (nullable? int32?) none
    staff := ← r.withDefault "staff" uint8? 0
    tick := ← r.withDefault "tick" int64? 0
    stemDirection := ← r.withDefault "stemDirection" (nullable? (choice? StemDirection.ofLabel?)) none
    marks := ← r.withDefault "marks" (list? (choice? Mark.ofLabel?)) [] }

/-- Reads an object by one of its members, which must be there once. -/
def onlyMember? {α : Type} (name : String) (read : Json → Option α) : Json → Option α
  | .obj fields => ((Json.obj fields).record? [name]).bind fun r => r.required name read
  | _ => none

/-- The first kind of context that an object can be read as. -/
def Context.ofJson? (j : Json) : Option Context :=
  (onlyMember? "staff" uint8? j).map .staff
    <|> (onlyMember? "key" int32? j).map .key
    <|> (onlyMember? "timeSig" Ratio.ofJson? j).map .timeSignature
    <|> (onlyMember? "clef" Token.ofJson? j).map .clef
    <|> (onlyMember? "octaveShift" Token.ofJson? j).map .octaveShift

/-- Reads a change of context. Inside the context nothing may be unreadable; `room` brackets may be opened. -/
def ContextChange.ofJson? (room : Nat) (j : Json) : Option ContextChange := do
  let r ← j.record? ["context", "staff", "tick"]
  return {
    context := ← r.required "context" fun c => if c.isSound (room - 1) then Context.ofJson? c else none
    staff := ← r.withDefault "staff" uint8? 0
    tick := ← r.withDefault "tick" int64? 0 }

/-- Reads a term, in which `room` brackets may be opened. -/
def Term.ofJson? (room : Nat) (j : Json) : Option Term :=
  if j.isSound room then
    (ContextChange.ofJson? room j).map .context <|> (Event.ofJson? j).map .event
  else none

/-- Reads a voice, in which `room` brackets may be opened. -/
def Voice.ofJson? (room : Nat) (j : Json) : Option Voice := do
  let r ← j.record? [
    "staff", "octaveShiftIn", "octaveShiftOut", "headClef", "terms", "eventsTime", "compensatedGraceTime", "partial"]
  return {
    staff := ← r.withDefault "staff" uint8? 0
    octaveShiftIn := ← r.withDefault "octaveShiftIn" (nullable? Token.ofJson?) none
    octaveShiftOut := ← r.withDefault "octaveShiftOut" (nullable? Token.ofJson?) none
    headClef := ← r.withDefault "headClef" (nullable? Token.ofJson?) none
    terms := ← r.withDefault "terms" (list? (Term.ofJson? (room - 2))) []
    eventsTime := ← r.withDefault "eventsTime" Ratio.ofJson? .zero
    compensatedGraceTime := ← r.withDefault "compensatedGraceTime" (nullable? Ratio.ofJson?) none
    isPartial := ← r.withDefault "partial" bool? false }

end Measure

open Json (bool? uint8? int8? int32? nullable? list?) in
/-- Reads a status; every field may be missing. -/
def TailStatus.ofJson? (j : Json) : Option TailStatus := do
  let r ← j.record? [
    "timeWarping", "invalidTimewarp", "incompleteTimeWarping", "beamOpen", "filling", "emptyStaff", "chord"]
  return {
    timeWarping := ← r.withDefault "timeWarping" bool? false
    invalidTimewarp := ← r.withDefault "invalidTimewarp" bool? false
    incompleteTimeWarping := ← r.withDefault "incompleteTimeWarping" bool? false
    beamOpen := ← r.withDefault "beamOpen" bool? false
    filling := ← r.withDefault "filling" (nullable? int8?) none
    emptyStaff := ← r.withDefault "emptyStaff" bool? false
    chord := ← r.withDefault "chord" (nullable? (list? Measure.Pitch.ofJson?)) none }

namespace Measure

open Json (bool? uint8? int32? list? text?)

/-- Reads a measure, in which `room` brackets may be opened. -/
def ofJson? (room : Nat) (j : Json) : Option Measure := do
  let r ← j.record? [
    "key", "timeSig", "isPartial", "defaultCompensatedGraceTime", "staffN", "voices", "ill", "tailStatus",
    "descriptors"]
  return {
    key := ← r.withDefault "key" int32? 0
    timeSignature := ← r.withDefault "timeSig" Ratio.ofJson? .zero
    isPartial := ← r.withDefault "isPartial" bool? false
    defaultCompensatedGraceTime := ← r.withDefault "defaultCompensatedGraceTime" Ratio.ofJson? .zero
    staffCount := ← r.withDefault "staffN" uint8? 0
    voices := ← r.withDefault "voices" (list? (Voice.ofJson? (room - 2))) []
    ill := ← r.withDefault "ill" bool? false
    tail := ← r.withDefault "tailStatus" TailStatus.ofJson? {}
    descriptors := ← r.withDefault "descriptors" (list? text?) [] }

/-- Reads the text of a measure. -/
def read? (text : String) : Option Measure := (Json.parse? text).bind (ofJson? Json.maxDepth)

/-- The text of a measure. -/
def text (m : Measure) : String := m.toJson.compact

/-- Reads the text of a list of measures. -/
def readList? (text : String) : Option (List Measure) :=
  (Json.parse? text).bind (list? (ofJson? (Json.maxDepth - 1)))

end Measure

end ScoreDecoding
