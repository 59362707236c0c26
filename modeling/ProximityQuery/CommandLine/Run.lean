import ProximityQuery.CommandLine.Options
import ProximityQuery.Config.Json
import ProximityQuery.Dictionary.Json
import ProximityQuery.Parser
import ProximityQuery.Render.Json
import ProximityQuery.Render.Text

/-!
# Running the command

What the command answers to its arguments, given what the files hold: the parsed query, or a line
that says what went wrong. The configuration is read before the dictionary, and both before the
query.
-/

namespace ProximityQuery.CommandLine

/-- The text of a file, or why it cannot be opened. -/
abbrev Files := (path : String) → Except String String

/-- What the command leaves behind. -/
structure Outcome where
  exit : UInt32
  stdout : String := ""
  stderr : String := ""
deriving DecidableEq, Repr

/-- Reads a file of some kind with `ofText?`. -/
def load {α : Type} (files : Files) (kind : String) (ofText? : String → Option α) (path : String) :
    Except String α :=
  match files path with
  | .error reason => .error ("Failed to open " ++ kind ++ " " ++ path ++ ": " ++ reason)
  | .ok text =>
    match ofText? text with
    | some value => .ok value
    | none => .error ("Failed to parse " ++ kind ++ " " ++ path)

/-- The configuration that the options ask for. -/
def Options.config (o : Options) (files : Files) : Except String Config := do
  let base ←
    match o.configPath with
    | none => pure ({} : Config)
    | some path => load files "config" Config.ofText? path
  pure
    { base with
      defaultField := o.field.getD base.defaultField
      inOrder := base.inOrder && !o.unordered }

/-- The dictionary that the options ask for. -/
def Options.dictionary (o : Options) (files : Files) : Except String Dictionary :=
  match o.termsPath with
  | none => pure .empty
  | some path => load files "term dictionary" Dictionary.ofText? path

/-- A query as the options want it. -/
def Options.render (o : Options) (query : Query) : String :=
  if o.json then query.toJson.pretty else query.toText

/-- The rendered query, or what went wrong. -/
def answer (files : Files) (o : Options) : Except String String := do
  let config ← o.config files
  let dictionary ← o.dictionary files
  let text := " ".intercalate o.words
  match ({ config, dictionary } : Parser).parse text with
  | .ok query => .ok (o.render query)
  | .error e => .error ("Failed to parse query `" ++ text ++ "`: " ++ e.message)

/-- The line for an error, its first word bold and red unless colors are off. -/
def errorLine (noColor : Bool) (message : String) : String :=
  let word := if noColor then "error" else "\x1b[0m\x1b[1m\x1b[31merror\x1b[0m"
  word ++ ": " ++ message ++ "\n"

/-- Runs the command. -/
def run (files : Files) (arguments : List String) : Outcome :=
  match ({} : Options).read arguments with
  | .error .help => { exit := 0 }
  | .error .invalid => { exit := 2 }
  | .ok o =>
    match answer files o with
    | .ok text => { exit := 0, stdout := text ++ "\n" }
    | .error message => { exit := 1, stderr := errorLine o.noColor message }

end ProximityQuery.CommandLine
