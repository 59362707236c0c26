import ProximityQuery.Config
import ProximityQuery.Json.Printer
import ProximityQuery.Json.Reader

/-!
# Configuration files

A configuration file holds a JSON object with a member for each setting, or an array of the settings
in their order. A missing setting has its default; members of other names are ignored, but a
setting may not be given twice. Nothing else is accepted: no null, no number with a point.
-/

namespace ProximityQuery

/-- The name of an operator. -/
def Operator.name : Operator → String
  | .or => "or"
  | .and => "and"

/-- The operator with a name. -/
def Operator.ofName? (name : String) : Option Operator :=
  if name = Operator.or.name then some .or
  else if name = Operator.and.name then some .and
  else none

/-- An operator is written as its name, or as an object with null under its name. -/
def Operator.ofJson? : Json → Option Operator
  | .string body => (Json.meaning? body).bind ofName?
  | .object [(body, .null)] => (Json.meaning? body).bind ofName?
  | _ => none

namespace Config

/-- The names of the settings, in order. -/
def names : List String :=
  ["default_field", "in_order", "default_operator", "fuzzy_max_edits", "max_expansions"]

/-- Where a setting is looked up: nothing when it is given wrongly, and otherwise its value if it is
given at all. -/
abbrev Source := (name : String) → Option (Option Json)

/-- The settings of an object. -/
def memberSource (members : List (String × Json)) : Source := fun name =>
  match members.filter fun m => m.1 = name with
  | [] => some none
  | [(_, value)] => some (some value)
  | _ => none

/-- The settings of an array. -/
def itemSource (items : List Json) : Source := fun name =>
  some ((names.idxOf? name).bind fun i => items[i]?)

/-- The value of a setting, its default when it is not given. -/
def setting {α : Type} (source : Source) (name : String) (default : α) (read? : Json → Option α) :
    Option α := do
  match ← source name with
  | none => some default
  | some value => read? value

/-- A natural number below a limit. -/
def below? (limit : Nat) (value : Json) : Option Nat :=
  value.nat?.filter (· < limit)

/-- The configuration with the settings of a source. -/
def ofSource? (source : Source) : Option Config := do
  let standard : Config := {}
  let defaultField ← setting source "default_field" standard.defaultField Json.text?
  let inOrder ← setting source "in_order" standard.inOrder Json.bool?
  let defaultOperator ←
    setting source "default_operator" standard.defaultOperator Operator.ofJson?
  let fuzzyMaxEdits ←
    setting source "fuzzy_max_edits" standard.fuzzyMaxEdits fun value =>
      (below? UInt32.size value).map UInt32.ofNat
  let maxExpansions ←
    setting source "max_expansions" standard.maxExpansions (below? UInt64.size)
  pure { defaultField, inOrder, defaultOperator, fuzzyMaxEdits, maxExpansions }

/-- The configuration that a JSON value holds. -/
def ofJson? (value : Json) : Option Config :=
  match value with
  | .object _ => value.object?.bind fun members => ofSource? (memberSource members)
  | .array items => if items.length ≤ names.length then ofSource? (itemSource items) else none
  | _ => none

/-- The configuration that a file holds. -/
def ofText? (s : String) : Option Config :=
  (Json.ofText? s).bind ofJson?

/-- A configuration with all its settings. -/
def toJson (c : Config) : Json :=
  .ofMembers
    [("default_field", .text c.defaultField), ("in_order", .bool c.inOrder),
      ("default_operator", .text c.defaultOperator.name),
      ("fuzzy_max_edits", .nat c.fuzzyMaxEdits.toNat), ("max_expansions", .nat c.maxExpansions)]

end Config

end ProximityQuery
