import ProximityQuery.Aggregate

/-!
# Rewriting phrases

The clause tree of a phrase becomes a positional query. Each clause at the top takes one position:
a term its own clause, a group the alternatives it allows, less those it prohibits. A group that
allows nothing holds its position with the never-matching term, since an empty alternation would
let the rest of the phrase close up. Prohibited clauses at the top are matched against the whole
sequence: the phrase is the other clauses, with as many more positions between them, except where
the sequence of all clauses matches.
-/

namespace ProximityQuery

/-- The field, the slop and the order of a phrase, and the factory of its words. -/
structure Rewriter where
  field : String
  slop : UInt32
  inOrder : Bool
  factory : LeafFactory

namespace Rewriter

/-- A member of a group: its clause, the weight of the clause and the part it plays. -/
abbrev Member := (Positional × Float) × Occur

/-- The members of a group collected in their order. -/
def collect (r : Rewriter) (members : List Member) : Aggregate Float :=
  members.foldl (fun a m => a.add m.1.1 m.1.2) { field := r.field }

/-- The clause of what a group allows. An empty alternation would give the position up, so a group
that allows nothing has the never-matching term. -/
def allowance (r : Rewriter) (included : Aggregate Float) : Positional :=
  if included.count = 0 then .never r.field else included.build Float.toFloat32

/-- One position from the members of a group: what they allow, except what they prohibit. -/
def combine (r : Rewriter) (members : List Member) : Positional :=
  let included := r.collect (members.filter fun m => !m.2.isProhibited)
  let excluded := r.collect (members.filter fun m => m.2.isProhibited)
  if excluded.count = 0 then r.allowance included
  else .not (r.allowance included) (excluded.build Float.toFloat32)

mutual

/-- What a member of a group adds to it, and with what weight. -/
def member (r : Rewriter) : ClauseTree → Positional × Float
  | .term t => (r.factory r.field t.text, t.boost.toFloat)
  | .composite children =>
    let clause := r.combine (members r children)
    (clause, clause.boost.toFloat)

/-- What the members of a group add to it. -/
def members (r : Rewriter) : List (ClauseTree × Occur) → List Member
  | [] => []
  | (child, occur) :: rest => (member r child, occur) :: members r rest

end

/-- The position that a clause at the top takes. -/
def position (r : Rewriter) : ClauseTree → Positional
  | .term t => (r.factory t.field t.text).setBoost t.boost
  | .composite children => r.combine (r.members children)

/-- A slop with `n` more positions, the greatest slop when it is too large. -/
def addSlop (slop : UInt32) (n : Nat) : UInt32 :=
  UInt32.ofNat (min (slop.toNat + n) (UInt32.size - 1))

/-- The positional clause of a sequence of clauses. The prohibited ones are counted without an upper
bound; below `2 ^ 32` of them, that is the count of an unsigned word of 32 bits. -/
def sequence (r : Rewriter) (children : List (ClauseTree × Occur)) : Positional :=
  let positions := children.map fun (child, occur) => (r.position child, occur)
  let whole : Positional := .near (positions.map Prod.fst) r.slop r.inOrder
  let kept := (positions.filter fun p => !p.2.isProhibited).map Prod.fst
  let prohibited := positions.countP fun p => p.2.isProhibited
  if prohibited = 0 then whole
  else
    match kept with
    | [only] => .not only whole
    | _ => .not (.near kept (addSlop r.slop prohibited) r.inOrder) whole

/-- The query of a phrase. A phrase of one word is that word, without a factory. -/
def rewrite (r : Rewriter) : ClauseTree → Query
  | .term t => .term t
  | .composite children => .positional (r.sequence children)

end Rewriter

mutual

/-- The clause tree of a query made of terms, boolean combinations and boosts; a boost is multiplied
into every leaf below it. -/
def Query.toClauseTree? : Query → Except QueryError ClauseTree
  | .term t => .ok (.term t)
  | .boolean children => (Query.toClauseTrees? children).map .composite
  | .boosted query boost => query.toClauseTree?.map (.scale boost)
  | .multiTerm _ which _ => .error (.unsupportedClause (.kind which.kind))
  | .phrase _ => .error (.unsupportedClause (.kind .phrase))
  | .positional _ => .error (.unsupportedClause (.kind .positional))

/-- The clause trees of the children of a boolean query, up to the first that has none. -/
def Query.toClauseTrees? : List (Query × Occur) → Except QueryError (List (ClauseTree × Occur))
  | [] => .ok []
  | (child, occur) :: rest => do
    let tree ← child.toClauseTree?
    let others ← Query.toClauseTrees? rest
    pure ((tree, occur) :: others)

end

/-- Refuses a tree with a term of another field; the leftmost one is reported. -/
def ClauseTree.requireField (anchorField : String) (tree : ClauseTree) : Except QueryError Unit :=
  tree.leaves.forM fun t => ProximityQuery.requireField t.field anchorField

/-- Rewrites a query from elsewhere, if it has a clause tree about the field of the phrase. -/
def Rewriter.rewriteQuery (r : Rewriter) (query : Query) : Except QueryError Query := do
  let tree ← query.toClauseTree?
  tree.requireField r.field
  pure (r.rewrite tree)

end ProximityQuery
