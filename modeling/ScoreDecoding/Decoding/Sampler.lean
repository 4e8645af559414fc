import ScoreDecoding.Decoding.Options
import ScoreDecoding.Decoding.Predictor
import ScoreDecoding.Decoding.Validation
import ScoreDecoding.Guide.Mask
import ScoreDecoding.Guide.Repair
import ScoreDecoding.Masker
import ScoreDecoding.Random

/-!
# Guided sampling

One sequence grows by one token at a time. The next token is admitted by the grammar, the guide, what the voice has
excluded, the caller's list and the masker. Wherever the measure may end, the validator is asked first: a token that
makes the voice too long is taken back and excluded for the rest of the voice, otherwise the guide is set anew. At the
end of a voice the timewarps are checked, and a broken one takes the sequence back to the start of the last event.

- `Sampler.step` is one iteration; it goes on only with less to do (`budget_lt_of_step`);
- `Sampler.sample` is a whole run. A run ends with a sequence that was ended by sampling or closed for a reason, or it
  stops where nothing can be drawn, or a collaborator fails.
-/

namespace ScoreDecoding.Sampler

/-- What stays the same during a run. -/
structure Setting where
  grammar : Grammar
  options : SamplerOptions

namespace Setting

/-- The guide at the start of a voice. -/
def initialGuide (c : Setting) : TokenSet := Guide.initial c.options.staffLimit

/-- What the caller's list leaves. -/
def permitted (c : Setting) : TokenSet := Guide.allExcept c.options.forbiddenTokens

end Setting

/-- How far a run has come. -/
structure State where
  tokens : List Token
  cursor : Cursor
  /-- What the guide allows. -/
  guide : TokenSet
  /-- What the voice has not excluded. -/
  voiceGuide : TokenSet := .full
  /-- How many iterations have passed since the measure might have ended. -/
  depth : Nat := 0
  steps : Nat := 0
  /-- The last state that the validator reported. -/
  status : Option TailStatus := none
  masker : Option Masker
  random : Random

/-- Why a sequence is closed before its end was sampled. -/
inductive CloseReason
  | predictorsExhausted | nothingLeft | tooDeep | nothingAdmissible | quotaExceeded
  deriving DecidableEq, Repr

/-- How a run ends. -/
inductive Ending
  /-- The end of the measure was sampled. -/
  | sampled
  | closed (reason : CloseReason)
  /-- No admitted token has a finite logit. -/
  | noFiniteLogit
  /-- The padding token was drawn. -/
  | paddingDrawn
  | failed (error : DecodingError)
  deriving DecidableEq, Repr

/-- What an iteration leads to. -/
inductive Outcome
  | next (s : State)
  | stop (s : State) (ending : Ending)

/-! ## Choosing a token -/

/-- The index of the greatest finite logit, the first one of equals, beside the best one so far. -/
def argmaxFrom (best : Option (Nat × Float)) (i : Nat) : List Float → Option Nat
  | [] => best.map (·.1)
  | l :: ls =>
    if Double.isFinite l && best.all (fun b => Double.lt b.2 l) then argmaxFrom (some (i, l)) (i + 1) ls
    else argmaxFrom best (i + 1) ls

/-- The index of the greatest finite logit, the first one of equals. -/
def argmax (logits : List Float) : Option Nat := argmaxFrom none 0 logits

/-- The logits of the alphabet. What is not admitted or has no logit cannot come; the others are divided by the
temperature if it is above zero. -/
def maskLogits (logits : Array Float) (admissible : TokenSet) (temperature : Float) : List Float :=
  let scale := if 0 < temperature then temperature else 1
  Token.all.map fun t =>
    match logits[t.id]? with
    | some l => if admissible.contains t then l / scale else -1 / 0
    | none => -1 / 0

/-- Draws an index, or takes the greatest logit if the temperature is not above zero. -/
def choose (random : Random) (temperature : Float) (masked : List Float) : Option (Nat × Random) :=
  if 0 < temperature then random.drawLogits masked else (argmax masked).map (·, random)

/-! ## One iteration -/

variable (c : Setting)

/-- Closes the sequence. -/
def close (s : State) (reason : CloseReason) : Outcome :=
  .stop { s with tokens := Repair.closeOut c.grammar s.status s.tokens } (.closed reason)

/-- Takes back the last token, which made the voice too long. -/
def takeBack (s : State) (last : Token) (status : TailStatus) : State :=
  let tokens := s.tokens.dropLast
  { s with
    tokens
    depth := 0
    voiceGuide := s.voiceGuide.erase last
    masker := s.masker.map (·.rewind tokens)
    status := some status }

/-- Whether a voice that is shorter than the measure must go on. -/
def mustFill (s : State) (status : TailStatus) : Bool :=
  c.options.forbidPartial && status.isPartial && !s.tokens.contains .vb

/-- Sets the guide by the state of the sequence. -/
def follow (s : State) (status : TailStatus) : State :=
  let guide := Guide.ofStatus status
  let guide := if status.beamOpen then guide.erase .vb else guide
  let guide := if mustFill c s status then guide.eraseAll [.vb, .eom] else guide
  { s with
    guide
    depth := 0
    voiceGuide := if status.beamOpen then s.voiceGuide.insert .beamClose else s.voiceGuide
    status := some status }

/-- Where an unfinished timewarp might end with a division, divisions are allowed only if the grammar does not let the
timewarp go on. -/
def guardDivisions (s : State) (row : TokenSet) : State :=
  if s.status.any (·.incompleteTimeWarping) && row.contains .d1 then
    let allowed := !row.contains .warpOn
    { s with guide := (Token.Group.division.tokens).foldl (fun g t => g.set t allowed) s.guide }
  else s

/-- One more token after which the measure cannot end. -/
def deepen (s : State) : State := { s with depth := s.depth + 1 }

/-- Takes the last token back if the voice is too long, and sets the guide otherwise. -/
def heed (s : State) (last : Token) (status : TailStatus) : Except Outcome State :=
  if status.isOverflowing then .error (.next (takeBack s last status)) else .ok (follow c s status)

/-- Brings the guide up to date, or ends the iteration. -/
def consult (s : State) (last : Token) (row : TokenSet) : Dialogue (Except Outcome State) :=
  if !c.options.parserGuide then .done (.ok s)
  else if row.contains .eom then
    (Validation.probeTail s.tokens).map fun
      | .error e => .error (.stop s (.failed e))
      | .ok status => heed c s last status
  else if Guide.maxDepth < s.depth + 1 then .done (.error (close c (deepen s) .tooDeep))
  else .done (.ok (guardDivisions (deepen s) row))

/-- The tokens that may come next. -/
def admissible (s : State) (row : TokenSet) : TokenSet :=
  .interAll [row, s.guide, s.voiceGuide, c.permitted, (s.masker.map (·.mask)).getD .full]

/-- Appends a token. -/
def push (s : State) (t : Token) : State :=
  let tokens := s.tokens ++ [t]
  { s with
    tokens
    masker := s.masker.map (·.next t)
    cursor := s.cursor.fit (c.options.descriptors.length + tokens.length) }

/-- Starts a voice anew. -/
def resetGuides (s : State) : State := { s with guide := c.initialGuide, voiceGuide := .full }

/-- Goes back to the start of the last event, whose timewarp is broken. -/
def backtrack (s : State) : State :=
  let tokens := s.tokens.take (Repair.lastEventStart s.tokens)
  resetGuides c { s with tokens, masker := s.masker.map (·.rewind tokens) }

/-- Ends a voice with the token that has been appended. -/
def endVoice (s : State) (t : Token) : Dialogue Outcome :=
  let s := { s with tokens := Repair.tidyBeams s.status s.tokens }
  (Validation.isTimewarpInvalid s.tokens).map fun
    | .error e => .stop s (.failed e)
    | .ok true => .next (backtrack c s)
    | .ok false => if t = .eom then .stop s .sampled else .next (resetGuides c s)

/-- Appends the token that was chosen. -/
def accept (s : State) (t : Token) : Dialogue Outcome :=
  if t = .pad then .done (.stop s .paddingDrawn)
  else if t = .vb ∨ t = .eom then endVoice c (push c s t) t
  else .done (.next (push c s t))

/-- Counts a step. -/
def countStep (s : State) : State := { s with steps := s.steps + 1 }

/-- Chooses a token by the logits of a predictor, and goes on with the generator that the draw leaves. -/
def select (s : State) (logits : Array Float) (allowed : TokenSet) : Dialogue Outcome :=
  if c.options.stepQuota < s.steps + 1 then .done (close c (countStep s) .quotaExceeded)
  else
    match choose s.random c.options.temperature (maskLogits logits allowed c.options.temperature) with
    | none => .done (.stop (countStep s) .noFiniteLogit)
    | some (i, random) =>
      match Token.ofId? i with
      | none => .done (.stop { countStep s with random } .noFiniteLogit)
      | some t => accept c { countStep s with random } t

/-- Asks the predictor in use, unless nothing is admitted. -/
def extend (s : State) (predictor : Nat) (row : TokenSet) : Dialogue Outcome :=
  if (admissible c s row).isEmpty then .done (close c s .nothingAdmissible)
  else (Dialogue.predict predictor c.options.descriptors s.tokens).bind fun
    | .error reason => .done (.stop s (.failed (.predictor reason)))
    | .ok logits => select c s logits (admissible c s row)

/-- One iteration. -/
def step (s : State) : Dialogue Outcome :=
  match s.cursor.current?, s.tokens.getLast? with
  | none, _ => .done (close c s .predictorsExhausted)
  | some _, none => .done (close c s .nothingLeft)
  | some predictor, some last =>
    let row := c.grammar.row last
    (consult c s last row).bind fun
      | .error outcome => .done outcome
      | .ok s => extend c s predictor row

/-! ## Progress -/

/-- What is left to do: every step that is left may append a token, and every token may be taken back. -/
def budget (s : State) : Nat := s.tokens.length + 2 * (c.options.stepQuota - s.steps)

theorem budget_takeBack {s : State} {last : Token} {status : TailStatus} (h : s.tokens ≠ []) :
    budget c (takeBack s last status) < budget c s := by
  have : 0 < s.tokens.length := List.length_pos_iff.2 h
  simp only [budget, takeBack, List.length_dropLast]
  omega

theorem consult_returns_error {s t : State} {last : Token} {row : TokenSet} (h : s.tokens ≠ [])
    (hr : (consult c s last row).Returns (.error (.next t))) : budget c t < budget c s := by
  unfold consult at hr
  split at hr
  · simp at hr
  · split at hr
    · obtain ⟨a, -, ha⟩ := Dialogue.returns_map.1 hr
      split at ha
      · simp at ha
      · unfold heed at ha
        split at ha
        · obtain rfl : t = _ := by simpa using ha
          exact budget_takeBack c h
        · simp at ha
    · split at hr <;> simp [close] at hr

theorem consult_returns_ok {s t : State} {last : Token} {row : TokenSet}
    (hr : (consult c s last row).Returns (.ok t)) : t.tokens = s.tokens ∧ t.steps = s.steps := by
  unfold consult at hr
  split at hr
  · obtain rfl : t = s := by simpa using hr
    exact ⟨rfl, rfl⟩
  · split at hr
    · obtain ⟨a, -, ha⟩ := Dialogue.returns_map.1 hr
      split at ha
      · simp at ha
      · unfold heed at ha
        split at ha
        · simp at ha
        · obtain rfl : t = _ := by simpa using ha
          exact ⟨rfl, rfl⟩
    · split at hr
      · simp at hr
      · obtain rfl : t = _ := by simpa using hr
        unfold guardDivisions
        split <;> exact ⟨rfl, rfl⟩

theorem endVoice_returns {s t : State} {u : Token} (hr : (endVoice c s u).Returns (.next t)) :
    t.tokens.length ≤ s.tokens.length ∧ t.steps = s.steps := by
  have htidy := Repair.length_tidyBeams_le s.status s.tokens
  unfold endVoice at hr
  obtain ⟨a, -, ha⟩ := Dialogue.returns_map.1 hr
  split at ha
  · simp at ha
  · obtain rfl : t = _ := by simpa using ha
    refine ⟨?_, rfl⟩
    simp only [backtrack, resetGuides, List.length_take]
    omega
  · split at ha
    · simp at ha
    · obtain rfl : t = _ := by simpa using ha
      exact ⟨htidy, rfl⟩

theorem accept_returns {s t : State} {u : Token} (hr : (accept c s u).Returns (.next t)) :
    t.tokens.length ≤ s.tokens.length + 1 ∧ t.steps = s.steps := by
  unfold accept at hr
  split at hr
  · simp at hr
  · split at hr
    · obtain ⟨h, h'⟩ := endVoice_returns c hr
      exact ⟨by simpa [push] using h, h'⟩
    · obtain rfl : t = _ := by simpa using hr
      exact ⟨by simp [push], rfl⟩

theorem select_returns {s t : State} {logits : Array Float} {allowed : TokenSet}
    (hr : (select c s logits allowed).Returns (.next t)) : budget c t < budget c s := by
  unfold select at hr
  split at hr
  · simp [close] at hr
  · rename_i hq
    split at hr
    · simp at hr
    · split at hr
      · simp at hr
      · obtain ⟨h, h'⟩ := accept_returns c hr
        simp only [budget, h', countStep] at hq h ⊢
        omega

/-- An iteration that goes on leaves less to do. -/
theorem budget_lt_of_step {s t : State} (hr : (step c s).Returns (.next t)) : budget c t < budget c s := by
  unfold step at hr
  split at hr
  · simp [close] at hr
  · simp [close] at hr
  · rename_i predictor last _ hlast
    have hne : s.tokens ≠ [] := fun h => by simp [h] at hlast
    obtain ⟨a, hc, ha⟩ := Dialogue.returns_bind.1 hr
    split at ha
    · obtain rfl := (Dialogue.returns_done.1 ha).symm
      exact consult_returns_error c hne hc
    · rename_i u
      obtain ⟨htok, hsteps⟩ := consult_returns_ok c hc
      unfold extend at ha
      split at ha
      · simp [close] at ha
      · obtain ⟨b, -, hb⟩ := Dialogue.returns_bind.1 ha
        split at hb
        · simp at hb
        · have := select_returns c hb
          simp only [budget, htok, hsteps] at this ⊢
          exact this

/-! ## A run -/

/-- Iterates until the run ends. -/
def iterate (s : State) : Dialogue (State × Ending) :=
  (step c s).attach.bind fun
    | ⟨.stop t ending, _⟩ => .done (t, ending)
    | ⟨.next t, _⟩ => iterate t
termination_by budget c s
decreasing_by exact budget_lt_of_step c ‹_›

/-- What a run gives: the sequence with the way in which it ended, and what has become of the masker and the
generator. -/
structure Run where
  tokens : List Token
  ending : Ending
  masker : Option Masker
  random : Random

/-- The sequence, unless a collaborator failed. -/
def Run.result (r : Run) : Except DecodingError (List Token) :=
  match r.ending with
  | .failed e => .error e
  | _ => .ok r.tokens

/-- The end of a run. The masker is set to what the sequence holds, unless a collaborator failed. -/
def finish (s : State) (ending : Ending) : Run :=
  let masker := match ending with
    | .failed _ => s.masker
    | _ => s.masker.map (·.rewind s.tokens)
  { tokens := s.tokens, ending, masker, random := s.random }

/-- The state in which a run starts. -/
def initialState (capacities : List Nat) (masker : Option Masker) (random : Random) : State where
  tokens := c.options.start
  cursor := .start capacities (c.options.descriptors.length + c.options.start.length)
  guide := c.initialGuide
  masker
  random

/-- Samples one measure with predictors of the given capacities. -/
def sample (capacities : List Nat) (masker : Option Masker) (random : Random) : Dialogue Run :=
  let s := initialState c capacities masker random
  match s.cursor.current? with
  | none =>
    let length := c.options.descriptors.length + c.options.start.length
    .done { tokens := s.tokens, ending := .failed (.noPredictor length), masker, random }
  | some _ => (iterate c s).map fun r => finish r.1 r.2

end ScoreDecoding.Sampler
