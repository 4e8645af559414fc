import ScoreDecoding.Measure.Collision
import ScoreDecoding.Measure.Json
import ScoreDecoding.Measure.Ties
import ScoreDecoding.Measure.Tokens
import ScoreDecoding.Spaces
import ScoreDecoding.Token.Text

/-!
# Reports on measures

A report lists the measures of a file: their tokens, one voice a line, and whether noteheads collide. Ties may be put
right before, and invisible rests merged.

- `Request.ofArguments?` reads a command line;
- `Report.text?` is the report.
-/

namespace ScoreDecoding

/-- What is asked for on a command line. -/
structure Request where
  path : String
  fixTies : Bool := false
  checkRests : Bool := false
  combineSpaces : Bool := false
  deriving DecidableEq, Repr

/-- Reads a command line: the path of a file, and options in any place after it. -/
def Request.ofArguments? : List String → Option Request
  | [] => none
  | path :: options =>
    if ['-', '-'].isPrefixOf path.toList then none
    else some {
      path
      fixTies := options.contains "--fix-ties"
      checkRests := options.contains "--check-rest"
      combineSpaces := options.contains "--combine-spaces" }

/-- How the command line is used. -/
def Request.usage : String := "usage: measure_tool <measures.json> [--fix-ties] [--check-rest] [--combine-spaces]"

namespace Report

/-- The lines on the measure with a number. -/
def lines (r : Request) (number : Nat) (m : Measure) : List String :=
  let fixed := if r.fixTies then m.normalizeTies.1 else m
  let tokens := if r.combineSpaces then Spaces.combine fixed.tokens else fixed.tokens
  ["=== Measure " ++ number.repr ++ " ==="]
    ++ (if r.fixTies then ["  Tie fixes: " ++ m.normalizeTies.2.repr] else [])
    ++ [Token.lines tokens,
      "  Notehead collision: " ++ if fixed.hasCollision r.checkRests then "true" else "false"]

/-- The report on measures, which are counted from a number on. -/
def linesFrom (r : Request) (number : Nat) : List Measure → List String
  | [] => []
  | m :: ms => lines r number m ++ linesFrom r (number + 1) ms

/-- The report on the measures of a text, if it can be read. -/
def text? (r : Request) (content : String) : Option String :=
  (Measure.readList? content).map fun measures =>
    String.join ((linesFrom r 1 measures).map fun line => line ++ "\n")

end Report

end ScoreDecoding
