import ScoreDecoding.Token.Json
import ScoreDecoding.Descriptor

/-!
# Options of a run

Every option may be missing from a text and then has its default; unknown options are ignored.

- `RunOptions` are shared by both decoders, `SamplerOptions` and `BeamOptions` add their own;
- `SamplerOptions.read?` and `BeamOptions.read?` read a text.
-/

namespace ScoreDecoding

/-- What both decoders are told. -/
structure RunOptions where
  /-- The highest staff that may be chosen. -/
  staffLimit : Option UInt8 := none
  /-- Words that are looked up in the vocabulary of the predictors. -/
  prompt : String := ""
  vocabulary : List String := []
  /-- How the sequence begins; the begin of a measure if it is empty. -/
  primer : List Token := [.bom]
  /-- How many steps may be taken. -/
  stepQuota : Nat := 512
  /-- Whether the first voice has to fill the measure. -/
  forbidPartial : Bool := false
  forbiddenTokens : List Token := []
  deriving DecidableEq, Repr

namespace RunOptions

/-- How the sequence begins. -/
def start (o : RunOptions) : List Token := if o.primer = [] then [.bom] else o.primer

/-- The ids of the words of the prompt. -/
def descriptors (o : RunOptions) : List Nat := Descriptor.idsOfPrompt o.vocabulary o.prompt

/-- Reads the fields of a record. -/
def ofRecord? (r : Json.Record) : Option RunOptions := do
  return {
    staffLimit := ← r.withDefault "staff_limit" (Json.nullable? Json.uint8?) none
    prompt := ← r.withDefault "prompt" Json.text? ""
    vocabulary := ← r.withDefault "vocab" (Json.list? Json.text?) []
    primer := ← r.withDefault "primer" Token.listOfJson? [.bom]
    stepQuota := ← r.withDefault "step_quota" (Json.natBelow? UInt64.size) 512
    forbidPartial := ← r.withDefault "forbid_partial" Json.bool? false
    forbiddenTokens := ← r.withDefault "forbidden_tokens" Token.listOfJson? [] }

end RunOptions

/-- What guided sampling is told. -/
structure SamplerOptions extends RunOptions where
  /-- Above zero, logits are divided by it and drawn; otherwise the greatest logit is taken. -/
  temperature : Float := 1.0
  /-- Whether the validator is asked wherever the measure may end. -/
  parserGuide : Bool := true
  deriving DecidableEq

namespace SamplerOptions

/-- Reads the options of guided sampling. -/
def ofJson? (j : Json) : Option SamplerOptions := do
  let r ← j.record? [
    "temperature", "parser_guide", "staff_limit", "prompt", "vocab", "primer", "step_quota", "forbid_partial",
    "forbidden_tokens"]
  let run ← RunOptions.ofRecord? r
  return {
    run with
    temperature := ← r.withDefault "temperature" Json.float? 1.0
    parserGuide := ← r.withDefault "parser_guide" Json.bool? true }

/-- Reads the text of options. -/
def read? (text : String) : Option SamplerOptions := (Json.parse? text).bind ofJson?

end SamplerOptions

/-- The lowest and the highest note that are allowed. -/
structure PitchWindow where
  low : Int32 := -23
  high : Int32 := 28
  deriving DecidableEq, Repr

namespace PitchWindow

/-- Whether a note is allowed. -/
def contains (w : PitchWindow) (note : Int32) : Bool := w.low ≤ note && note ≤ w.high

/-- Reads a window, of which both ends must be given. -/
def ofJson? (j : Json) : Option PitchWindow := do
  let r ← j.record? ["low", "high"]
  return { low := ← r.required "low" Json.int32?, high := ← r.required "high" Json.int32? }

end PitchWindow

/-- What beam search is told. -/
structure BeamOptions extends RunOptions where
  /-- How many branches go on at each step. -/
  width : Nat := 1
  /-- Whether the last chord must lie in the window, and four octave marks in a row are too many. -/
  limitPitch : Bool := false
  pitchWindow : PitchWindow := {}
  /-- Whether noteheads must not collide. -/
  forbidCollisions : Bool := false
  /-- What a branch gains with each token. -/
  stepAward : Float := 0.04
  deriving DecidableEq

namespace BeamOptions

/-- Reads the options of beam search. -/
def ofJson? (j : Json) : Option BeamOptions := do
  let r ← j.record? [
    "branch_n", "staff_limit", "prompt", "vocab", "primer", "step_quota", "forbid_partial", "forbidden_tokens",
    "limit_pitch", "pitch_window", "forbid_notehead_conflict", "step_award"]
  let run ← RunOptions.ofRecord? r
  return {
    run with
    width := ← r.withDefault "branch_n" (Json.natBelow? UInt64.size) 1
    limitPitch := ← r.withDefault "limit_pitch" Json.bool? false
    pitchWindow := ← r.withDefault "pitch_window" PitchWindow.ofJson? {}
    forbidCollisions := ← r.withDefault "forbid_notehead_conflict" Json.bool? false
    stepAward := ← r.withDefault "step_award" Json.float? 0.04 }

/-- Reads the text of options. -/
def read? (text : String) : Option BeamOptions := (Json.parse? text).bind ofJson?

end BeamOptions

end ScoreDecoding
