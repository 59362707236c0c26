import ProximityQuery.Parser

/-!
# Sessions

A parser at work on a queue of phrases. Between two resolutions more phrases can be put into the
queue, terms can be added to the dictionary, and the order that later phrases ask for can change.
-/

namespace ProximityQuery

/-- Changes the order that phrases captured from now on ask for. -/
def Parser.setInOrder (p : Parser) (inOrder : Bool) : Parser :=
  { p with config := { p.config with inOrder } }

/-- Adds terms to a field of the dictionary. -/
def Parser.insert (p : Parser) (field : String) (terms : List String) : Parser :=
  { p with dictionary := terms.foldl (·.insert field) p.dictionary }

/-- A parser with the queue of phrases it works on. -/
structure Session where
  parser : Parser
  anchors : AnchorQueue := {}

namespace Session

/-- What can happen to a session. -/
inductive Event
  /-- An anchor that is not resolved is put at the end of the queue. -/
  | push (field rawText : String) (slop : UInt32) (inOrder : Bool)
  | resolve
  | insert (field : String) (terms : List String)
  | setInOrder (inOrder : Bool)

/-- What an event gives back. -/
inductive Answer
  /-- The number of the anchor that was pushed. -/
  | number (id : Nat)
  /-- How many anchors were resolved, or the error that stopped the resolution. -/
  | resolved (outcome : Except QueryError Nat)
  | done

/-- What an event gives back, and the session after it. -/
def step (s : Session) : Event → Answer × Session
  | .push field rawText slop inOrder =>
    let (id, anchors) := s.anchors.push { field, rawText, slop, inOrder }
    (.number id, { s with anchors })
  | .resolve =>
    let (outcome, anchors) := s.parser.resolve s.anchors
    (.resolved outcome, { s with anchors })
  | .insert field terms => (.done, { s with parser := s.parser.insert field terms })
  | .setInOrder inOrder => (.done, { s with parser := s.parser.setInOrder inOrder })

/-- The session after some events. -/
def after (s : Session) : List Event → Session
  | [] => s
  | event :: events => (s.step event).2.after events

end Session

end ProximityQuery
