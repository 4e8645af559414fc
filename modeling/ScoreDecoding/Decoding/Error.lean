/-!
# Errors of a decoder

Collaborators may fail, and no predictor may be large enough. Everything else that goes wrong in decoding is repaired
or ends the run, and is no error.
-/

namespace ScoreDecoding

/-- Why a decoder gives up. -/
inductive DecodingError
  /-- A predictor failed for a reason. -/
  | predictor (reason : String)
  /-- The validator failed on a text for a reason. -/
  | validator (code reason : String)
  /-- No predictor takes an input of this length. -/
  | noPredictor (length : Nat)
  deriving DecidableEq, Repr

namespace DecodingError

/-- The wording of an error. -/
def message : DecodingError → String
  | .predictor _ => "predictor failed"
  | .validator code _ => "validator failed on `" ++ code ++ "`"
  | .noPredictor length => "no predictor can hold a " ++ length.repr ++ "-token input"

/-- The reason that a collaborator gave. -/
def reason? : DecodingError → Option String
  | .predictor reason => some reason
  | .validator _ reason => some reason
  | .noPredictor _ => none

end DecodingError

end ScoreDecoding
