import ProximityQuery.ClauseTree

/-!
# Anchors

The phrases of a query in the order in which they were found. An anchor keeps what was written, and
the clause tree it stands for once that is known; the number of an anchor is its place in the queue.
-/

namespace ProximityQuery

/-- A phrase of a query. -/
structure Anchor where
  field : String
  /-- The text between the quotes, its escapes kept. -/
  rawText : String
  slop : UInt32
  inOrder : Bool
  /-- The tree the phrase stands for, once it has been read. -/
  resolved : Option ClauseTree := none
deriving Repr

/-- Phrases in the order in which they were found. -/
structure AnchorQueue where
  toList : List Anchor := []
deriving Repr

namespace AnchorQueue

/-- Appends an anchor and gives its number. -/
def push (q : AnchorQueue) (a : Anchor) : Nat × AnchorQueue :=
  (q.toList.length, ⟨q.toList ++ [a]⟩)

/-- The anchor with a number. -/
def get? (q : AnchorQueue) (id : Nat) : Option Anchor := q.toList[id]?

/-- The number of anchors. -/
def size (q : AnchorQueue) : Nat := q.toList.length

/-- Whether there are no anchors. -/
def isEmpty (q : AnchorQueue) : Bool := q.toList.isEmpty

end AnchorQueue

/-- Resolves the anchors that are not resolved yet, from the first on, and counts them. The first
anchor that cannot be resolved stops the run with its error; those before it stay resolved. -/
def Anchor.resolveAll {ε : Type} (tree? : Anchor → Except ε ClauseTree) :
    List Anchor → Except ε Nat × List Anchor
  | [] => (.ok 0, [])
  | a :: rest =>
    match a.resolved with
    | some _ =>
      let (outcome, others) := resolveAll tree? rest
      (outcome, a :: others)
    | none =>
      match tree? a with
      | .error e => (.error e, a :: rest)
      | .ok tree =>
        let (outcome, others) := resolveAll tree? rest
        (outcome.map (· + 1), { a with resolved := some tree } :: others)

end ProximityQuery
