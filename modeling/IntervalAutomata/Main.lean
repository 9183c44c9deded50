import IntervalAutomata.Cli.Report

/-!
# The program

Reads the command line, prints the outcome and exits with its status. Output counts as going to a
terminal if both of its streams do.
-/

namespace IntervalAutomata.Cli

/-- A line on each command, printed when help is asked for. -/
def helpText : String :=
  programAbout ++ "\n\n" ++
    String.join (commands.map fun command => "  " ++ command.name ++ "  " ++ command.about ++ "\n")

/-- Prints the outcome of a command line and answers with the exit status. -/
def run (words : List String) : IO UInt32 := do
  let stdout ← IO.getStdout
  let stderr ← IO.getStderr
  match Request.ofWords words with
  | .error .help =>
    stdout.putStr helpText
    return 0
  | .error e =>
    stderr.putStr ("error: " ++ e.message ++ "\n")
    return UInt32.ofNat e.exitCode
  | .ok request =>
    let terminal := (← stdout.isTty) && (← stderr.isTty)
    let outcome := request.outcome terminal
    stdout.putStr outcome.stdout
    stderr.putStr outcome.stderr
    return UInt32.ofNat outcome.exitCode

end IntervalAutomata.Cli

/-- Runs the program on its arguments. -/
def main (words : List String) : IO UInt32 :=
  IntervalAutomata.Cli.run words
