import FlatQuery.CommandLine

/-! The program: reads a payload from a file or from standard input and prints its conversion. -/

namespace FlatQuery.CommandLine

def readInput (arguments : List String) : IO (Option String) := do
  try
    match arguments with
    | path :: _ => some <$> IO.FS.readFile path
    | [] => some <$> (← IO.getStdin).readToEnd
  catch _ => return none

def readEnvironment : IO (List (String × String)) :=
  Settings.keys.filterMapM fun name => do return (← IO.getEnv name).map (name, ·)

def usage : String :=
  "Expected a JSON payload \x7b\"query\": ..., \"variables\": \x7b...\x7d, \"operationName\": ...\x7d " ++
    "as file argument or on stdin"

def program (arguments : List String) : IO UInt32 := do
  let environment ← readEnvironment
  let outcome := run (fun name => environment.lookup name) (← readInput arguments)
  if outcome.status = unreadable then IO.eprintln usage
  IO.print outcome.output
  return outcome.status.toUInt32

end FlatQuery.CommandLine

def main (arguments : List String) : IO UInt32 := FlatQuery.CommandLine.program arguments
