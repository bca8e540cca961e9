import FactGraph.CommandLine.Run

/-! # The program

Reads the files that a command line names, runs it, and prints its report: the output, or the errors
with their causes. -/

namespace FactGraph

/-- The variable of the environment that names the settings file. -/
def settingsVariable : String := "FACTGRAPH_CONFIG"

/-- How the program is called. -/
def usage : String :=
  "usage: factgraph [--config FILE] COMMAND FILE\n" ++
  "  parse FILE [--json]\n" ++
  "  walk FILE\n" ++
  "  sql FILE --start TYPE@HASH... [--limit ROWS]\n" ++
  "  assess FILE [--start TYPE@HASH...] [--user TYPE@HASH]"

/-- The text of a file that can be read. -/
def readFile? (file : String) : IO (Option String) := do
  try
    return some (← IO.FS.readFile file)
  catch _ =>
    return none

/-- The files that an invocation names, with their texts. -/
def readFiles (invocation : Invocation) : IO (List (String × Option String)) :=
  (invocation.settings.toList ++ [invocation.command.file]).mapM fun file => do
    return (file, ← readFile? file)

end FactGraph

open FactGraph in
/-- Runs a command line and answers its exit code. -/
def main (arguments : List String) : IO UInt32 := do
  match Arguments.parse (← IO.getEnv settingsVariable) arguments with
  | none =>
    IO.eprintln usage
    return 2
  | some invocation =>
    let files ← readFiles invocation
    let report := invocation.run fun file => (files.lookup file).join
    IO.print report.output
    for cause in report.causes do
      IO.eprintln ("error: " ++ cause)
    return UInt32.ofNat report.exitCode
