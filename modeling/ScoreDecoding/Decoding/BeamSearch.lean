import ScoreDecoding.Decoding.Options
import ScoreDecoding.Decoding.Predictor
import ScoreDecoding.Decoding.Validation
import ScoreDecoding.Double.Order
import ScoreDecoding.Grammar
import ScoreDecoding.Guide.Mask
import ScoreDecoding.Measure.Collision

/-!
# Beam search

Several sequences grow side by side. At each step the best ones are continued by every token that is admitted, each
with the logarithm of its probability, and all continuations are ranked together. Where guided sampling repairs a
sequence, beam search rejects it.

The best sequence that is complete and has sound timewarps is kept as the candidate. A search ends when the best
sequence of a step is complete, when no sequence is left, when the steps are used up, or when the best open sequence
is worse than the candidate; the last rule compares sequences of different lengths and only saves work.

- `BeamSearch.expand` continues one branch, and `expandRanked` as many as are wanted;
- `BeamSearch.step` is one step, which uses up the quota (`steps_of_step`); `BeamSearch.search` is a whole run.
-/

namespace ScoreDecoding

/-- A sequence with its score: the sum of the logarithms of its probabilities and of its step awards. -/
structure Branch where
  score : Float
  tokens : List Token
  last : Token
  guide : TokenSet
  /-- How many steps have passed since the measure might have ended. -/
  depth : Nat
  deriving DecidableEq

namespace Branch

/-- Whether the measure is ended. -/
def isComplete (b : Branch) : Bool := b.last == .eom

/-- The branch with one more token. -/
def extend (b : Branch) (t : Token) (score : Float) (guide : TokenSet) (depth : Nat) : Branch where
  score
  tokens := b.tokens ++ [t]
  last := t
  guide
  depth

/-- Branches by falling score; equal ones keep their order. -/
def rank (bs : List Branch) : List Branch :=
  bs.mergeSort fun a b => Double.totalRank b.score ≤ Double.totalRank a.score

end Branch

namespace BeamSearch

/-- The two functions that probabilities need. A search only compares what comes out, so that what is said of it holds
for any two functions. -/
structure Elementary where
  exp : Float → Float := Float.exp
  log : Float → Float := Float.log

/-- What stays the same during a search. -/
structure Setting where
  grammar : Grammar
  options : BeamOptions
  elementary : Elementary := {}

namespace Setting

/-- The guide at the start of a voice. -/
def initialGuide (c : Setting) : TokenSet := Guide.initial c.options.staffLimit

/-- What the caller's list leaves. -/
def permitted (c : Setting) : TokenSet := Guide.allExcept c.options.forbiddenTokens

/-- How many branches are continued at each step: one at least. -/
def width (c : Setting) : Nat := max 1 c.options.width

end Setting

/-! ## Scores -/

/-- The logarithm of the sum of the exponentials. Nothing is given if there is no value. -/
def logSumExp? (f : Elementary) (values : List Float) : Option Float :=
  match values with
  | [] => none
  | v :: vs =>
    let greatest := vs.foldl Double.max v
    if Double.isFinite greatest then
      some (greatest + f.log (values.foldl (fun sum x => sum + f.exp (x - greatest)) 0))
    else none

/-- The admitted tokens that have a finite logit, with it. -/
def admitted (logits : Array Float) (admissible : TokenSet) : List (Token × Float) :=
  admissible.toList.filterMap fun t =>
    (logits[t.id]?).bind fun l => if Double.isFinite l then some (t, l) else none

/-! ## One branch -/

variable (c : Setting)

/-- What a branch is continued with: a guide and a depth. -/
structure Continuation where
  guide : TokenSet
  depth : Nat

/-- Whether the chord at the tail leaves the window. -/
def leavesWindow (status : TailStatus) : Bool :=
  c.options.limitPitch && status.chord.any fun chord => chord.any fun p => !c.options.pitchWindow.contains p.note

/-- Whether a voice that is shorter than the measure must go on. -/
def mustFill (tokens : List Token) (status : TailStatus) : Bool :=
  c.options.forbidPartial && status.isPartial && !tokens.contains .vb

/-- The guide where the measure may end, unless the branch is rejected: because the voice is too long, its last chord
is out of the window, noteheads collide, or a beam is open in a voice that is full. -/
def guideOf? (tokens : List Token) (m : Measure) : Option TokenSet :=
  if m.tail.isOverflowing || leavesWindow c m.tail || (c.options.forbidCollisions && m.hasCollision false)
      || (m.tail.beamOpen && m.tail.isFull) then none
  else
    let guide := Guide.ofStatus m.tail
    some (if m.tail.beamOpen || mustFill c tokens m.tail then guide.eraseAll [.vb, .eom] else guide)

/-- Whether four octave marks stand in a row at the end. -/
def endsInOctaveMarks (tokens : List Token) : Bool :=
  4 ≤ tokens.length && (tokens.drop (tokens.length - 4)).all (·.group == .octaveMark)

/-- What a branch is continued with, unless it is rejected. -/
def continuation? (b : Branch) (row : TokenSet) : Dialogue (Except DecodingError (Option Continuation)) :=
  if b.last = .vb then
    (Validation.isTimewarpInvalid b.tokens).map fun answer => answer.map fun invalid =>
      if invalid then none else some ⟨c.initialGuide, b.depth⟩
  else if row.contains .eom then
    (Validation.validate b.tokens (some .eom)).map fun answer => answer.map fun measure =>
      (guideOf? c b.tokens measure).map fun guide => ⟨guide, 0⟩
  else if Guide.maxDepth < b.depth + 1 || (c.options.limitPitch && endsInOctaveMarks b.tokens) then
    .done (.ok none)
  else .done (.ok (some ⟨b.guide, b.depth + 1⟩))

/-- The branch with every admitted token that has a finite logit. -/
def children (b : Branch) (k : Continuation) (choices : List (Token × Float)) : List Branch :=
  match logSumExp? c.elementary (choices.map (·.2)) with
  | none => []
  | some base => choices.map fun tl =>
      b.extend tl.1 (b.score + (tl.2 - base) + c.options.stepAward) k.guide k.depth

/-- The tokens that may come next. -/
def admissible (row : TokenSet) (k : Continuation) : TokenSet := .interAll [row, k.guide, c.permitted]

/-- The continuations of a branch; none if it is rejected. -/
def expand (predictor : Nat) (b : Branch) : Dialogue (Except DecodingError (List Branch)) :=
  (continuation? c b (c.grammar.row b.last)).bind fun
    | .error e => .done (.error e)
    | .ok none => .done (.ok [])
    | .ok (some k) => (Dialogue.predict predictor c.options.descriptors b.tokens).map fun
      | .error reason => .error (.predictor reason)
      | .ok logits => .ok (children c b k (admitted logits (admissible c (c.grammar.row b.last) k)))

/-- The continuations of ranked branches in their order, until so many of them have had some. -/
def expandRanked (predictor : Nat) : (wanted : Nat) → List Branch → Dialogue (Except DecodingError (List Branch))
  | 0, _ => .done (.ok [])
  | _, [] => .done (.ok [])
  | wanted + 1, b :: bs => (expand c predictor b).bind fun
    | .error e => .done (.error e)
    | .ok [] => expandRanked predictor (wanted + 1) bs
    | .ok found => (expandRanked predictor wanted bs).map fun answer => answer.map (found ++ ·)

/-! ## One step -/

/-- How far a search has come. -/
structure State where
  cursor : Cursor
  /-- The open branches, the best one first. -/
  frontier : List Branch
  /-- The best complete branch so far, or the root. -/
  candidate : Branch
  steps : Nat := 0

/-- How a search ends. -/
inductive Ending
  | bestComplete | candidateBetter | noChildren | quotaExceeded | frontierExhausted | candidateAhead
  | predictorsExhausted
  deriving DecidableEq, Repr

/-- What a step leads to. -/
inductive Outcome
  | next (s : State)
  | stop (result : Branch) (ending : Ending)
  | failed (error : DecodingError)

/-- Looks for a better candidate among complete branches, the best one first. A branch that is no better than the
candidate ends the search, and one with a broken timewarp is passed over. -/
def improve (candidate : Branch) : List Branch → Dialogue (Except DecodingError Branch)
  | [] => .done (.ok candidate)
  | b :: bs =>
    if candidate.isComplete && Double.le b.score candidate.score then .done (.ok candidate)
    else (Validation.isTimewarpInvalid b.tokens).bind fun
      | .error e => .done (.error e)
      | .ok false => .done (.ok b)
      | .ok true => improve candidate bs

/-- Whether a branch is complete and has a finite score. -/
def isFinished (b : Branch) : Bool := b.isComplete && Double.isFinite b.score

/-- Whether a branch is open and has a finite score. -/
def isOpen (b : Branch) : Bool := !b.isComplete && Double.isFinite b.score

/-- The end of a step, with a candidate. Of the ranked branches, `pending` are those that the search has not
returned or rejected as the best one; `length` is the number of tokens of each. -/
def settle (s : State) (candidate : Branch) (ranked pending : List Branch) (length : Nat) : Outcome :=
  if c.options.stepQuota < s.steps + 1 then
    .stop (if candidate.isComplete then candidate else pending.head?.getD candidate) .quotaExceeded
  else match ranked.filter isOpen with
    | [] => .stop candidate .frontierExhausted
    | best :: rest =>
      if candidate.isComplete && Double.lt best.score candidate.score then .stop candidate .candidateAhead
      else .next {
        cursor := s.cursor.fit (c.options.descriptors.length + length)
        frontier := best :: rest
        candidate
        steps := s.steps + 1 }

/-- The end of a step after the best branch has been dealt with. -/
def proceed (s : State) (ranked pending : List Branch) (length : Nat) : Dialogue Outcome :=
  (improve s.candidate (pending.filter isFinished)).map fun
    | .error e => .failed e
    | .ok candidate => settle c s candidate ranked pending length

/-- Looks at the ranked branches of a step. -/
def review (s : State) : List Branch → Dialogue Outcome
  | [] => .done (.stop s.candidate .noChildren)
  | best :: rest =>
    if best.isComplete then
      (Validation.isTimewarpInvalid best.tokens).bind fun
        | .error e => .done (.failed e)
        | .ok true => proceed c s (best :: rest) rest best.tokens.length
        | .ok false =>
          if s.candidate.isComplete && Double.lt best.score s.candidate.score then
            .done (.stop s.candidate .candidateBetter)
          else .done (.stop best .bestComplete)
    else proceed c s (best :: rest) (best :: rest) best.tokens.length

/-- One step. -/
def step (s : State) : Dialogue Outcome :=
  match s.cursor.current? with
  | none => .done (.stop s.candidate .predictorsExhausted)
  | some predictor => (expandRanked c predictor c.width s.frontier).bind fun
    | .error e => .done (.failed e)
    | .ok found => review c s (Branch.rank found)

/-! ## Progress -/

theorem settle_next {s t : State} {candidate : Branch} {ranked pending : List Branch} {length : Nat}
    (h : settle c s candidate ranked pending length = .next t) :
    t.steps = s.steps + 1 ∧ t.steps ≤ c.options.stepQuota := by
  unfold settle at h
  split at h
  · simp at h
  · rename_i hq
    split at h
    · simp at h
    · split at h
      · simp at h
      · obtain rfl := (Outcome.next.inj h).symm
        exact ⟨rfl, by simpa using hq⟩

theorem proceed_next {s t : State} {ranked pending : List Branch} {length : Nat}
    (h : (proceed c s ranked pending length).Returns (.next t)) :
    t.steps = s.steps + 1 ∧ t.steps ≤ c.options.stepQuota := by
  obtain ⟨a, -, ha⟩ := Dialogue.returns_map.1 h
  split at ha
  · simp at ha
  · exact settle_next c ha.symm

theorem review_next {s t : State} {ranked : List Branch} (h : (review c s ranked).Returns (.next t)) :
    t.steps = s.steps + 1 ∧ t.steps ≤ c.options.stepQuota := by
  unfold review at h
  split at h
  · simp at h
  · split at h
    · obtain ⟨a, -, ha⟩ := Dialogue.returns_bind.1 h
      split at ha
      · simp at ha
      · exact proceed_next c ha
      · split at ha <;> simp at ha
    · exact proceed_next c h

/-- A step that goes on has used up one of the steps that were left. -/
theorem steps_of_step {s t : State} (h : (step c s).Returns (.next t)) :
    t.steps = s.steps + 1 ∧ t.steps ≤ c.options.stepQuota := by
  unfold step at h
  split at h
  · simp at h
  · obtain ⟨a, -, ha⟩ := Dialogue.returns_bind.1 h
    split at ha
    · simp at ha
    · exact review_next c ha

/-! ## A search -/

/-- Takes steps until the search ends. -/
def iterate (s : State) : Dialogue (Except DecodingError (Branch × Ending)) :=
  (step c s).attach.bind fun
    | ⟨.stop b ending, _⟩ => .done (.ok (b, ending))
    | ⟨.failed e, _⟩ => .done (.error e)
    | ⟨.next t, _⟩ => iterate t
termination_by c.options.stepQuota - s.steps
decreasing_by
  have := steps_of_step c ‹_›
  omega

/-- The branch from which a search starts. -/
def root : Branch where
  score := 0
  tokens := c.options.start
  last := c.options.start.getLast?.getD .bom
  guide := c.initialGuide
  depth := 0

/-- Searches one measure with predictors of the given capacities. -/
def search (capacities : List Nat) : Dialogue (Except DecodingError (Branch × Ending)) :=
  let length := c.options.descriptors.length + c.options.start.length
  let cursor := Cursor.start capacities length
  match cursor.current? with
  | none => .done (.error (.noPredictor length))
  | some _ => iterate c { cursor, frontier := [root c], candidate := root c }

end BeamSearch

end ScoreDecoding
