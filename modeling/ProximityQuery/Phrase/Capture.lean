import ProximityQuery.Anchor
import ProximityQuery.Error

/-!
# Capture

The first reading of a query: everything is read as it stands, and each phrase becomes an anchor in
a queue, with a placeholder in the tree.
-/

namespace ProximityQuery

/-- Boosts a query: a single leaf multiplies its own boost, anything else is wrapped. -/
def Query.boostBy (factor : Float32) : Query → Query
  | .term t => .term (t.scale factor)
  | .multiTerm field which boost => .multiTerm field which (boost * factor)
  | other => .boosted other factor

/-- Reads constructs as they stand and collects the phrases. -/
def captureBuilder (inOrder : Bool) : Builder (StateM AnchorQueue) Query where
  term field text := pure (.term { field, text })
  multiTerm field which := pure (.multiTerm field which 1)
  phrase field raw slop := fun anchors =>
    let (id, anchors) := anchors.push { field, rawText := raw, slop, inOrder }
    (.phrase id, anchors)
  boolean children := pure (.boolean children)
  boost query factor := pure (query.boostBy factor)

/-- Reads a query text: its tree with placeholders, and the phrases in the order of their numbers. -/
def capture (d : Grammar.Dialect) (inOrder : Bool) (field text : String) :
    Except QueryError (Query × AnchorQueue) :=
  match (captureBuilder inOrder).ofText d field text |>.run {} with
  | (.ok query, anchors) => .ok (query, anchors)
  | (.error m, _) => .error (.malformed m)

end ProximityQuery
