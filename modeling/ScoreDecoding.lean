import ScoreDecoding.Main
import ScoreDecoding.Voices
import ScoreDecoding.Token.Error
import ScoreDecoding.Measure.Padding
import ScoreDecoding.Decoding.Sampler
import ScoreDecoding.Decoding.BeamSearch
import ScoreDecoding.Proofs.Dialogue
import ScoreDecoding.Proofs.Validation
import ScoreDecoding.Proofs.Conformance
import ScoreDecoding.Proofs.Choice
import ScoreDecoding.Proofs.Iteration
import ScoreDecoding.Proofs.Edits
import ScoreDecoding.Proofs.Acceptance
import ScoreDecoding.Proofs.Lineage
import ScoreDecoding.Proofs.VoiceStart
import ScoreDecoding.Proofs.Nesting
import ScoreDecoding.Proofs.Greatest
import ScoreDecoding.Proofs.Reach
import ScoreDecoding.Proofs.Twins
import ScoreDecoding.Proofs.Greedy
import ScoreDecoding.Proofs.Completions
import ScoreDecoding.Proofs.NaturalEnd
import ScoreDecoding.Proofs.Balance
import ScoreDecoding.Proofs.ForcedClose
import ScoreDecoding.Proofs.StaffLimit
import ScoreDecoding.Proofs.Questions
import ScoreDecoding.Proofs.Transcript
import ScoreDecoding.Proofs.Bounds
import ScoreDecoding.Proofs.EndMarks
import ScoreDecoding.Proofs.Capacity
import ScoreDecoding.Proofs.Masking
import ScoreDecoding.Proofs.VoiceBreaks
import ScoreDecoding.Proofs.Requirements
import ScoreDecoding.Proofs.Failures
import ScoreDecoding.Proofs.UniqueReading
import ScoreDecoding.Proofs.Closing
import ScoreDecoding.Proofs.FinishedVoices
import ScoreDecoding.Proofs.MergedSpaces
import ScoreDecoding.Proofs.Documents
import ScoreDecoding.Proofs.HeldTies
import ScoreDecoding.Proofs.Selection
import ScoreDecoding.Proofs.FullVoices
import ScoreDecoding.Proofs.NoteheadPlaces
import ScoreDecoding.Proofs.LastEvents
import ScoreDecoding.Proofs.Exclusions
import ScoreDecoding.Double.Whole
import ScoreDecoding.Proofs.Ratios
import ScoreDecoding.Double.Dyadic
import ScoreDecoding.Proofs.PaddedVoices
import ScoreDecoding.Proofs.JoinedVoices
import ScoreDecoding.Proofs.TokenText
import ScoreDecoding.Proofs.LearnedGrammar
import ScoreDecoding.Proofs.SeededStates
import ScoreDecoding.Proofs.MaskerHistories
import ScoreDecoding.Proofs.Tidying
