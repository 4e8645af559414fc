import ScoreDecoding.Report

/-!
# The command line

Reports on the measures of a file. The exit code is two for a command line that cannot be read and one for a file
that cannot.
-/

/-- Prints the report, or says what went wrong on the error output. -/
def main (arguments : List String) : IO UInt32 := do
  match ScoreDecoding.Request.ofArguments? arguments with
  | none =>
    IO.eprintln ScoreDecoding.Request.usage
    return 2
  | some request =>
    let content ← (some <$> IO.FS.readFile request.path) <|> pure none
    match content.bind (ScoreDecoding.Report.text? request) with
    | none =>
      IO.eprintln ("Failed to load " ++ request.path)
      return 1
    | some report =>
      IO.print report
      return 0
