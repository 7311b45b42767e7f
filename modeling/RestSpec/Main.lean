/-
The command line program: reads the files that a request names, and prints or writes what the run
leaves.
-/
import RestSpec.Command.Run

namespace RestSpec.Command

/-- The content of a file, if it can be read. -/
def readFile? (path : String) : IO (Option String) := do
  try
    return some (← IO.FS.readFile path)
  catch _ => return none

/-- A request without settings takes them from the file that the environment names. -/
def withVariables (request : Request) : IO Request := do
  match request with
  | .generate a =>
    if a.config.isSome then return request
    return .generate { a with config := ← IO.getEnv "Y2R_CONFIG" }
  | .inspect _ => return request

/-- Prints the text of an outcome or writes it to its file; the result is the exit code. -/
def carryOut (outcome : Outcome) : IO UInt32 := do
  match outcome with
  | .printed text =>
    IO.print text
    return 0
  | .written path text =>
    try
      IO.FS.writeFile path text
      return 0
    catch _ =>
      IO.eprintln ("Error: " ++ (Failure.unwritableOutput path).message)
      return 1

/-- The words that a command line may have, for who asks for help or gives wrong ones. -/
def usage : String :=
  "usage: generate --input FILE... [--config FILE] [--output FILE] [--format yaml|json]\n" ++
  "       inspect --input FILE...\n"

/-- Reads, runs and answers; the number says whether it went well. -/
def serve (words : List String) : IO UInt32 := do
  match readLine words with
  | .error .help | .error .version =>
    IO.print usage
    return 0
  | .error _ =>
    IO.eprint usage
    return 2
  | .ok request =>
    let request ← withVariables request
    let contents ← request.paths.mapM fun path => return (path, ← readFile? path)
    match run (fun path => (contents.lookup path).bind id) request with
    | .ok outcome => carryOut outcome
    | .error e =>
      IO.eprintln ("Error: " ++ e.message)
      return 1

end RestSpec.Command

/-- Serves the words of the command line. -/
def main (words : List String) : IO UInt32 := RestSpec.Command.serve words
