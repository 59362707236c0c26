import ProximityQuery.Config
import ProximityQuery.Phrase.Capture
import ProximityQuery.Phrase.Resolve
import ProximityQuery.Phrase.Rewrite

/-!
# Parsing

A query is read twice. The first reading captures its phrases as anchors, the second resolves each
anchor under its own field; then every placeholder is replaced by the positional query of its
phrase.
-/

namespace ProximityQuery

/-- What queries are parsed with. -/
structure Parser where
  config : Config := {}
  /-- What compiles the patterns of phrases. -/
  regex : Regex.Compiler := {}
  dictionary : Dictionary := .empty
  factory : LeafFactory := Positional.plainTerm

namespace Parser

/-- Reads a query and captures its phrases. -/
def capture (p : Parser) (text : String) : Except QueryError (Query × AnchorQueue) :=
  ProximityQuery.capture p.config.dialect p.config.inOrder p.config.defaultField text

/-- The clause tree that an anchor stands for. -/
def treeOf (p : Parser) (a : Anchor) : Except QueryError ClauseTree :=
  resolvePhrase p.config.dialect p.regex p.dictionary p.config.maxExpansions a.field a.rawText

/-- Resolves the anchors that are not resolved yet, and counts them. -/
def resolve (p : Parser) (anchors : AnchorQueue) : Except QueryError Nat × AnchorQueue :=
  let (outcome, resolved) := Anchor.resolveAll p.treeOf anchors.toList
  (outcome, ⟨resolved⟩)

/-- The positional query of the phrase with a number. -/
def phraseQuery (p : Parser) (anchors : AnchorQueue) (id : Nat) : Except QueryError Query :=
  match anchors.get? id with
  | none => .error (.unsupportedClause (.unknownPhrase id))
  | some a =>
    match a.resolved with
    | none => .error (.unsupportedClause (.unresolvedPhrase id))
    | some tree =>
      let rewriter : Rewriter :=
        { field := a.field, slop := a.slop, inOrder := a.inOrder, factory := p.factory }
      .ok (rewriter.rewrite tree)

mutual

/-- Replaces every placeholder by the query of its phrase. -/
def substitute (p : Parser) (anchors : AnchorQueue) : Query → Except QueryError Query
  | .phrase id => p.phraseQuery anchors id
  | .boolean children => (substituteAll p anchors children).map .boolean
  | .boosted query boost => (substitute p anchors query).map (.boosted · boost)
  | .term t => .ok (.term t)
  | .multiTerm field which boost => .ok (.multiTerm field which boost)
  | .positional clause => .ok (.positional clause)

/-- Replaces every placeholder in the children of a boolean query. -/
def substituteAll (p : Parser) (anchors : AnchorQueue) :
    List (Query × Occur) → Except QueryError (List (Query × Occur))
  | [] => .ok []
  | (child, occur) :: rest => do
    let query ← substitute p anchors child
    let others ← substituteAll p anchors rest
    pure ((query, occur) :: others)

end

/-- Parses a query, its phrases rewritten into positional queries. -/
def parse (p : Parser) (text : String) : Except QueryError Query := do
  let (query, anchors) ← p.capture text
  match p.resolve anchors with
  | (.error e, _) => .error e
  | (.ok _, resolved) => p.substitute resolved query

end Parser

end ProximityQuery
