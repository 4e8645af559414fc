import ScoreDecoding.Measure.Basic

/-!
# Noteheads that collide

Two noteheads on one staff at one time, on one note and with one stem direction cannot be told apart. Every event
claims places for its noteheads, and a place that is claimed twice is a collision. Grace notes and invisible rests
claim nothing, and neither do events whose stem direction is not known.

- `Measure.claims` lists the places that are claimed, in order;
- `Measure.hasCollision` says that a place is claimed twice.
-/

namespace ScoreDecoding.Measure

/-- The place of a notehead. -/
structure Place where
  staff : UInt8
  tick : Int64
  note : Int32
  stem : StemDirection
  deriving DecidableEq, Repr

/-- The notes on both sides of the head of a rest. -/
def restNotes (head : Int32) : List Int32 := [head - 2, head - 1, head, head + 1, head + 2]

/-- The places around the head of a rest, for every stem direction. -/
def Event.restClaims (e : Event) (head : Int32) : List Place :=
  (restNotes head).flatMap fun note => [StemDirection.free, .up, .down].map fun stem => ⟨e.staff, e.tick, note, stem⟩

/-- The places of the pitches of an event with a stem. -/
def Event.chordClaims (e : Event) : List Place :=
  match e.stemDirection with
  | some stem => e.chord.map fun p => ⟨e.staff, e.tick, p.note, stem⟩
  | none => []

/-- The places that an event claims. If rests count, a rest claims the places around its head and no other. -/
def Event.claims (restsCount : Bool) (e : Event) : List Place :=
  if e.grace || e.space then []
  else if restsCount && e.rest then (e.chord.head?.map fun p => e.restClaims p.note).getD []
  else e.chordClaims

/-- The places that the events of a measure claim. -/
def claims (restsCount : Bool) (m : Measure) : List Place :=
  m.voices.flatMap fun v => v.events.flatMap (Event.claims restsCount)

/-- Whether an element of a list occurs in it again. -/
def hasRepetition {α : Type} [DecidableEq α] : List α → Bool
  | [] => false
  | a :: as => as.contains a || hasRepetition as

/-- Whether a place is claimed twice. -/
def hasCollision (restsCount : Bool) (m : Measure) : Bool := hasRepetition (m.claims restsCount)

theorem hasRepetition_iff {α : Type} [DecidableEq α] {as : List α} : hasRepetition as = true ↔ ¬ as.Nodup := by
  induction as with
  | nil => simp [hasRepetition]
  | cons a as ih => simp only [hasRepetition, Bool.or_eq_true, List.contains_iff_mem, ih, List.nodup_cons]; grind

end ScoreDecoding.Measure
