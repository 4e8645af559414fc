import ScoreDecoding.Measure.Basic

/-!
# Ties that hold

A tie that leads to a chord with other pitches is taken away, and a slur over one step between chords with the same
pitches becomes a tie. Events of a voice are looked at in neighbouring pairs, from left to right.

- `holds` says that a chord sustains the one before;
- `Measure.normalizeTies` gives the measure after one pass with the number of changes.
-/

namespace ScoreDecoding.Measure

/-- The second of two pitches repeats the first: the same letter and accidental. -/
def Pitch.repeats (before after : Pitch) : Bool :=
  after.letter == before.letter && after.accidental == before.accidental

/-- Whether a chord sustains the chord before it: as many pitches, each repeated. The first pitch counts its octaves
from the chord before, so it must have no octave mark; the others count from the pitch below and must have the same
marks. -/
def holds : (before after : List Pitch) → Bool
  | [], [] => true
  | p :: ps, q :: qs =>
    p.repeats q && q.octaves == 0 && ps.length == qs.length
      && (ps.zip qs).all fun pq => pq.1.repeats pq.2 && pq.2.octaves == pq.1.octaves
  | _, _ => false

/-- The pair of neighbouring events after its ties and slurs have been put right, and whether they had to be. -/
def normalizePair (e next : Event) : Event × Event × Bool :=
  if e.marks.contains .tie then
    if holds e.chord next.chord then (e, next, false)
    else ({ e with marks := e.marks.filter (· != .tie) }, next, true)
  else if holds e.chord next.chord && e.marks.contains .slurOpen && next.marks.contains .slurClose then
    ({ e with marks := e.marks.filter (· != .slurOpen) ++ [.tie] },
      { next with marks := next.marks.filter (· != .slurClose) }, true)
  else (e, next, false)

/-- The event `e` and the terms after it, in which each event is paired with the next one; the number of changes. -/
def normalizeAfter (e : Event) : List Term → Event × List Term × Nat
  | [] => (e, [], 0)
  | .context c :: ts =>
    let (e', rest, n) := normalizeAfter e ts
    (e', .context c :: rest, n)
  | .event next :: ts =>
    let (e', next', changed) := normalizePair e next
    let (next'', rest, n) := normalizeAfter next' ts
    (e', .event next'' :: rest, (if changed then 1 else 0) + n)

/-- The terms of a voice with ties that hold, and the number of changes. -/
def normalizeTerms : List Term → List Term × Nat
  | [] => ([], 0)
  | .context c :: ts =>
    let (rest, n) := normalizeTerms ts
    (.context c :: rest, n)
  | .event e :: ts =>
    let (e', rest, n) := normalizeAfter e ts
    (.event e' :: rest, n)

/-- A voice with ties that hold, and the number of changes. -/
def Voice.normalizeTies (v : Voice) : Voice × Nat :=
  let (terms, n) := normalizeTerms v.terms
  ({ v with terms }, n)

/-- Voices with ties that hold, and the number of changes. -/
def normalizeVoices : List Voice → List Voice × Nat
  | [] => ([], 0)
  | v :: vs =>
    let (v', n) := v.normalizeTies
    let (rest, k) := normalizeVoices vs
    (v' :: rest, n + k)

/-- A measure with ties that hold, and the number of changes. -/
def normalizeTies (m : Measure) : Measure × Nat :=
  let (voices, n) := normalizeVoices m.voices
  ({ m with voices }, n)

end ScoreDecoding.Measure
