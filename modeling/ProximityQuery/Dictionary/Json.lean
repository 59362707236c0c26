import ProximityQuery.Dictionary
import ProximityQuery.Json.Printer
import ProximityQuery.Json.Reader

/-!
# Term files

A term file holds a JSON object with an array of terms under the name of each field. Of a field that
is named twice the last array counts.
-/

namespace ProximityQuery.Dictionary

/-- Gives a field the terms of a JSON array. -/
def putItems? (d : Dictionary) (member : String × Json) : Option Dictionary := do
  let terms ← (← member.2.array?).mapM Json.text?
  pure (d.put member.1 (.ofList terms))

/-- The dictionary that a JSON value holds. -/
def ofJson? (value : Json) : Option Dictionary := do
  (← value.object?).foldlM putItems? empty

/-- The dictionary that a file holds. -/
def ofText? (s : String) : Option Dictionary :=
  (Json.ofText? s).bind ofJson?

/-- A dictionary with its fields and terms in ascending order. -/
def toJson (d : Dictionary) : Json :=
  .ofMembers (d.fields.map fun (field, terms) => (field, .array (terms.toList.map Json.text)))

end ProximityQuery.Dictionary
