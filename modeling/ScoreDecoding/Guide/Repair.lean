import ScoreDecoding.Grammar
import ScoreDecoding.Measure.Basic

/-!
# Repairs of a sequence

What guided sampling does to a sequence that went wrong: beam openings that were never closed are taken out, a
sequence is cut back to the start of its last event, or to the last token after which the measure may end.

- `Repair.tidyBeams`, `Repair.lastEventStart` and `Repair.closeOut` are the three repairs;
- none of them makes a sequence longer, except for the end that `closeOut` adds (`length_tidyBeams_le`).
-/

namespace ScoreDecoding.Repair

/-- Takes beam openings out of a sequence that is read from its end, down to the first beam closing. -/
def dropOpenings : List Token → List Token
  | [] => []
  | .beamClose :: ts => .beamClose :: ts
  | .beamOpen :: ts => dropOpenings ts
  | t :: ts => t :: dropOpenings ts

/-- Takes out the beam openings after the last beam closing, if the status says that a beam is open. -/
def tidyBeams (status : Option TailStatus) (ts : List Token) : List Token :=
  if status.any (·.beamOpen) then (dropOpenings ts.reverse).reverse else ts

/-- Whether a token may belong to an event before its duration. -/
def isEventHead (t : Token) : Bool :=
  match t.group with
  | .letter | .accidental | .octaveMark | .stem | .grace | .tremolo | .tremoloCast => true
  | _ => false

/-- A sequence without the voice break or the end of the measure at its end. -/
def openBody (ts : List Token) : List Token :=
  match ts.getLast? with
  | some .vb | some .eom => ts.dropLast
  | _ => ts

/-- Where the last voice starts: after the last voice break, or else after the begin of the measure. -/
def voiceStart (body : List Token) : Nat :=
  match body.reverse.dropWhile (· != .vb) with
  | [] => if body.head? = some .bom then 1 else 0
  | rest => rest.length

/-- How many tokens of a voice stand before its last event. The event is found by its last pitch letter, and reaches
back over the tokens that may belong to it. -/
def tokensBeforeLastEvent (voice : List Token) : Nat :=
  match voice.reverse.dropWhile (·.group != .letter) with
  | [] => 0
  | _ :: before => (before.dropWhile isEventHead).length

/-- Where the last event of the last voice starts; the start of the voice if it has no pitch letter. -/
def lastEventStart (ts : List Token) : Nat :=
  let body := openBody ts
  let start := voiceStart body
  start + tokensBeforeLastEvent (body.drop start)

/-- The longest part of a sequence from its start after which the measure may end. -/
def cutToEnd (g : Grammar) (ts : List Token) : List Token :=
  (ts.reverse.dropWhile fun t => !g.allows t .eom).reverse

/-- Closes a sequence: cuts it to where the measure may end, takes out open beams, and ends it. -/
def closeOut (g : Grammar) (status : Option TailStatus) (ts : List Token) : List Token :=
  tidyBeams status (cutToEnd g ts) ++ [.eom]

/-! ## Lengths -/

theorem length_dropOpenings_le (ts : List Token) : (dropOpenings ts).length ≤ ts.length := by
  fun_induction dropOpenings ts with
  | case1 => exact Nat.le_refl _
  | case2 => exact Nat.le_refl _
  | case3 ts ih => rw [List.length_cons]; omega
  | case4 t ts _ _ ih => rw [List.length_cons, List.length_cons]; omega

theorem length_tidyBeams_le (status : Option TailStatus) (ts : List Token) :
    (tidyBeams status ts).length ≤ ts.length := by
  unfold tidyBeams
  split
  · simpa using length_dropOpenings_le ts.reverse
  · exact Nat.le_refl _

end ScoreDecoding.Repair
