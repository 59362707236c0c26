import ProximityQuery.CommandLine.Run

/-!
# The command

Reads the files that the arguments name, runs the command on what they hold, and prints its outcome.
-/

namespace ProximityQuery.CommandLine

/-- Why a file could not be opened. -/
def openFailure : IO.Error → String
  | .noFileOrDirectory _ code _ => "No such file or directory (os error " ++ toString code ++ ")"
  | .permissionDenied _ code _ => "Permission denied (os error " ++ toString code ++ ")"
  | e => toString e

/-- The text of a file, or why it could not be opened. -/
def readFile (path : String) : IO (String × Except String String) := do
  match ← (IO.FS.readFile path).toBaseIO with
  | .ok text => pure (path, .ok text)
  | .error e => pure (path, .error (openFailure e))

/-- The texts of the files that the arguments name. -/
def readFiles (arguments : List String) : IO Files := do
  let paths :=
    match ({} : Options).read arguments with
    | .ok o => o.configPath.toList ++ o.termsPath.toList
    | .error _ => []
  let texts ← paths.mapM readFile
  pure fun path => (texts.lookup path).getD (.error "No such file or directory (os error 2)")

/-- Runs the command and prints its outcome. -/
def execute (arguments : List String) : IO UInt32 := do
  let outcome := run (← readFiles arguments) arguments
  (← IO.getStdout).putStr outcome.stdout
  (← IO.getStderr).putStr outcome.stderr
  pure outcome.exit

end ProximityQuery.CommandLine

/-- The command. -/
def main (arguments : List String) : IO UInt32 :=
  ProximityQuery.CommandLine.execute arguments
