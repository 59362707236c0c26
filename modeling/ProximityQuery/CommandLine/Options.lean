/-!
# Options

The arguments of the command. Options come first, and the first argument that is none begins the
query, which takes everything after it as it stands. An option may be given once.
-/

namespace ProximityQuery.CommandLine

/-- What the arguments ask for. -/
structure Options where
  configPath : Option String := none
  termsPath : Option String := none
  /-- A default field in place of the configured one. -/
  field : Option String := none
  unordered : Bool := false
  json : Bool := false
  noColor : Bool := false
  /-- The words of the query. -/
  words : List String := []
deriving DecidableEq, Repr

/-- Why the arguments lead to no query. -/
inductive Refusal
  /-- Help was asked for. -/
  | help
  | invalid
deriving DecidableEq, Repr

/-- An option with a value. -/
inductive Setting
  | config
  | terms
  | field
deriving DecidableEq, Repr

/-- An option without a value. -/
inductive Switch
  | unordered
  | json
  | noColor
  | help
deriving DecidableEq, Repr

/-- What an argument is, if it stands before the query. -/
inductive Argument
  /-- The end of the options. -/
  | separator
  /-- An option with a value, which may be attached to it. -/
  | setting (which : Setting) (attached : Option String)
  | switch (which : Switch)
  | unknown
  | word
deriving DecidableEq, Repr

/-- The option with a value that has a long name. -/
def Setting.ofName? : String → Option Setting
  | "config" => some .config
  | "terms" => some .terms
  | "field" => some .field
  | _ => none

/-- The option without a value that has a long name. -/
def Switch.ofName? : String → Option Switch
  | "unordered" => some .unordered
  | "json" => some .json
  | "no-color" => some .noColor
  | "help" => some .help
  | _ => none

/-- The option with a value that has a short name. -/
def Setting.ofChar? : Char → Option Setting
  | 'c' => some .config
  | 't' => some .terms
  | 'f' => some .field
  | _ => none

/-- An argument after two dashes: a long name, and a value if an equals sign follows. -/
def Argument.ofLong (s : List Char) : Argument :=
  let name := String.ofList (s.takeWhile (· ≠ '='))
  let attached : Option String :=
    match s.dropWhile (· ≠ '=') with
    | [] => none
    | _ :: value => some (String.ofList value)
  match Setting.ofName? name, Switch.ofName? name, attached with
  | some which, _, attached => .setting which attached
  | none, some which, none => .switch which
  | _, _, _ => .unknown

/-- An argument after one dash: a short name, and the value of an option right after it or after an
equals sign. -/
def Argument.ofShort (name : Char) (rest : List Char) : Argument :=
  match Setting.ofChar? name, rest with
  | some which, [] => .setting which none
  | some which, '=' :: value => .setting which (some (String.ofList value))
  | some which, value => .setting which (some (String.ofList value))
  | none, _ => if name = 'h' then .switch .help else .unknown

/-- What an argument before the query is; a lone dash is a word. -/
def Argument.of (argument : String) : Argument :=
  match argument.toList with
  | ['-', '-'] => .separator
  | '-' :: '-' :: rest => ofLong rest
  | '-' :: name :: rest => ofShort name rest
  | _ => .word

namespace Options

/-- Gives an option its value, refusing a second value and a path without characters. -/
def set (o : Options) (which : Setting) (value : String) : Except Refusal Options :=
  match which with
  | .config =>
    if o.configPath.isSome || value.isEmpty then .error .invalid
    else .ok { o with configPath := some value }
  | .terms =>
    if o.termsPath.isSome || value.isEmpty then .error .invalid
    else .ok { o with termsPath := some value }
  | .field => if o.field.isSome then .error .invalid else .ok { o with field := some value }

/-- Turns on an option that is not on yet. -/
def turnOn (o : Options) (which : Switch) : Except Refusal Options :=
  match which with
  | .unordered => if o.unordered then .error .invalid else .ok { o with unordered := true }
  | .json => if o.json then .error .invalid else .ok { o with json := true }
  | .noColor => if o.noColor then .error .invalid else .ok { o with noColor := true }
  | .help => .error .help

/-- Reads the arguments, of which at least one word has to be left. -/
def read (o : Options) : List String → Except Refusal Options
  | [] => .error .invalid
  | argument :: rest =>
    match Argument.of argument with
    | .word => .ok { o with words := argument :: rest }
    | .separator => if rest.isEmpty then .error .invalid else .ok { o with words := rest }
    | .unknown => .error .invalid
    | .switch which => do read (← o.turnOn which) rest
    | .setting which (some value) => do read (← o.set which value) rest
    | .setting which none =>
      match rest with
      | [] => .error .invalid
      | value :: rest =>
        if Argument.of value = .word then do read (← o.set which value) rest
        else .error .invalid

end Options

end ProximityQuery.CommandLine
