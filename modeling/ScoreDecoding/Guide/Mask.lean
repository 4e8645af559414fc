import ScoreDecoding.TokenSet
import ScoreDecoding.Measure.Basic

/-!
# Guides

The grammar knows which tokens are neighbours. A guide adds what the validator knows of the whole measure: a beam that
is open must be closed, a full voice takes no more notes, and an unfinished timewarp must be finished before the voice
ends.

- `Guide.initial` holds at the start of a voice, and `Guide.ofStatus` where the validator has read the sequence;
- `Guide.allExcept` is what a caller's list of forbidden tokens leaves.
-/

namespace ScoreDecoding.Guide

/-- How many tokens in a row may be written after which the measure cannot end. -/
def maxDepth : Nat := 20

/-- The tokens of staves above a limit. -/
def stavesAbove (limit : UInt8) : List Token :=
  (ValueTable.staff.filter fun entry => (limit.toNat : Int) < entry.1).map (·.2)

/-- The start of a voice: no timewarp goes on, no beam is closed, and no staff lies above the limit. -/
def initial (staffLimit : Option UInt8) : TokenSet :=
  ((TokenSet.full.erase .warpOn).erase .beamClose).eraseAll ((staffLimit.map stavesAbove).getD [])

/-- The guide without what makes a voice longer. -/
def eraseNotes (s : TokenSet) : TokenSet :=
  ((((s.eraseGroup .letter).eraseGroup .division).eraseGroup .stem).eraseGroup .tremoloCast).eraseAll [.dot, .grace]

/-- What the state of a sequence allows: beams open and close in turn, a timewarp goes on only if one is open, and
where the voice is full either the timewarp is finished first or no note is added. -/
def ofStatus (s : TailStatus) : TokenSet :=
  let beams := TokenSet.full.erase (if s.beamOpen then .beamOpen else .beamClose)
  let warps := if s.timeWarping then beams else beams.erase .warpOn
  if s.isFull then
    if s.incompleteTimeWarping then warps.eraseAll [.vb, .eom] else eraseNotes warps
  else warps

/-- All tokens but the given ones. -/
def allExcept (forbidden : List Token) : TokenSet := TokenSet.full.diff (.ofList forbidden)

end ScoreDecoding.Guide
