import Mathlib
import ProximityQuery.Proofs.Capture
import ProximityQuery.Proofs.Resolution

/-!
# Two readings of a phrase

A phrase that is read twice is read the same way twice. What the second reading makes of the text of
a phrase follows from the query that the first reading makes of that text about the same field: it
is refused exactly when that query holds a phrase, a leaf of another field, a pattern that is not
compiled or a construct that stands for too many terms, and otherwise its clause tree is that query
with its constructs expanded.
-/

namespace ProximityQuery

namespace Query

section

variable (regex : Regex.Compiler) (dictionary : Dictionary)

mutual

/-- The clause tree of a query without placeholders: every construct that stands for many terms
becomes the optional combination of those terms, each with the boost of the construct. Nothing is
claimed of a placeholder or of a positional clause. -/
def expand : Query → ClauseTree
  | .term t => .term t
  | .boolean children => .composite (expandChildren children)
  | .multiTerm field which boost =>
    .anyOf ((dictionary.selected field which).map fun text => { field, text, boost })
  | .boosted query boost => query.expand.scale boost
  | .phrase _ => .composite []
  | .positional _ => .composite []

/-- The clause trees of the children of a boolean query. -/
def expandChildren : List (Query × Occur) → List (ClauseTree × Occur)
  | [] => []
  | (child, occur) :: rest => (child.expand, occur) :: expandChildren rest

end

/-- Whether a query is a construct that stands for many terms. -/
def isMultiTerm : Query → Bool
  | .multiTerm _ _ _ => true
  | .term _ | .boolean _ | .boosted _ _ | .phrase _ | .positional _ => false

/-- The clause tree of a whole phrase that reads as this query: a construct that stands for many
terms fills one position. -/
def phraseTree (query : Query) : ClauseTree :=
  if query.isMultiTerm then .composite [(query.expand dictionary, .should)]
  else query.expand dictionary

/-- A query that a phrase about `field` may read as. -/
structure FitsPhrase (limit : Nat) (field : String) (query : Query) : Prop where
  /-- No phrase is inside the phrase. -/
  no_placeholder : query.hasPlaceholders = false
  /-- Every term is about the field. -/
  field_of_term : ∀ t, .term t ∈ query.leaves → t.field = field
  /-- Every construct that stands for many terms is about the field. -/
  field_of_multiTerm : ∀ g which boost, .multiTerm g which boost ∈ query.leaves → g = field
  /-- None of them is a pattern that is refused. A package that compiles every expression refuses
  none. -/
  compiles : ∀ g which boost, .multiTerm g which boost ∈ query.leaves →
    which.refusal? regex = none
  /-- None of them stands for more terms of the field than the limit. -/
  few_terms : ∀ g which boost, .multiTerm g which boost ∈ query.leaves →
    (dictionary.selected field which).length ≤ limit

/-- The children are expanded one by one. -/
theorem expandChildren_eq_map (children : List (Query × Occur)) :
    expandChildren dictionary children = children.map fun c => (c.1.expand dictionary, c.2) := by
  induction children with
  | nil => rfl
  | cons c rest ih => rw [expandChildren, ih, List.map_cons]

/-- A boost that is pushed into a leaf expands as a boost that is wrapped around it. -/
theorem expand_boostBy (factor : Float32) (query : Query) :
    (query.boostBy factor).expand dictionary = (query.expand dictionary).scale factor := by
  cases query with
  | term t => rfl
  | boolean children => rfl
  | multiTerm field which boost =>
    rw [boostBy, expand, expand, ClauseTree.scale_anyOf, List.map_map]
    rfl
  | boosted query boost => rfl
  | phrase id => rfl
  | positional clause => rfl

/-- A boost does not change whether a query is a construct that stands for many terms. -/
theorem isMultiTerm_boostBy (factor : Float32) (query : Query) :
    (query.boostBy factor).isMultiTerm = query.isMultiTerm := by
  cases query <;> rfl

section

variable {regex : Regex.Compiler} {dictionary : Dictionary} {limit : Nat} {field : String}

/-- A term fits when it is about the field. -/
theorem fitsPhrase_term {t : Term} :
    FitsPhrase regex dictionary limit field (.term t) ↔ t.field = field := by
  constructor
  · intro h
    exact h.field_of_term t (List.mem_singleton.mpr rfl)
  · intro h
    refine ⟨rfl, fun u hu => ?_, fun g which boost hg => ?_, fun g which boost hg => ?_,
      fun g which boost hg => ?_⟩
    · rw [leaves, List.mem_singleton] at hu
      injection hu with hu
      exact hu ▸ h
    · cases List.mem_singleton.mp hg
    · cases List.mem_singleton.mp hg
    · cases List.mem_singleton.mp hg

/-- A construct that stands for many terms fits when it is about the field, is not refused and does
not stand for too many. -/
theorem fitsPhrase_multiTerm {g : String} {which : MultiTerm} {boost : Float32} :
    FitsPhrase regex dictionary limit field (.multiTerm g which boost) ↔
      g = field ∧ which.refusal? regex = none ∧
        (dictionary.selected field which).length ≤ limit := by
  have hself : .multiTerm g which boost ∈ (Query.multiTerm g which boost).leaves :=
    List.mem_singleton.mpr rfl
  constructor
  · intro h
    exact ⟨h.field_of_multiTerm g which boost hself, h.compiles g which boost hself,
      h.few_terms g which boost hself⟩
  · rintro ⟨hg, hcompiles, hlen⟩
    refine ⟨rfl, fun t ht => ?_, fun g' which' boost' h => ?_, fun g' which' boost' h => ?_,
      fun g' which' boost' h => ?_⟩
    · cases List.mem_singleton.mp ht
    · rw [leaves, List.mem_singleton] at h
      injection h with hg'
      exact hg'.trans hg
    · rw [leaves, List.mem_singleton] at h
      injection h with _ hwhich
      exact hwhich ▸ hcompiles
    · rw [leaves, List.mem_singleton] at h
      injection h with _ hwhich
      exact hwhich ▸ hlen

/-- A placeholder fits no phrase. -/
theorem not_fitsPhrase_phrase {id : Nat} : ¬ FitsPhrase regex dictionary limit field (.phrase id) :=
  fun h => by cases h.no_placeholder

/-- A level fits when each of its clauses does. -/
theorem fitsPhrase_boolean {children : List (Query × Occur)} :
    FitsPhrase regex dictionary limit field (.boolean children) ↔
      ∀ c ∈ children, FitsPhrase regex dictionary limit field c.1 := by
  constructor
  · rintro ⟨hplace, hterm, hmulti, hcompiles, hfew⟩ c hc
    rw [hasPlaceholders, anyHasPlaceholders_eq_any, List.any_eq_false] at hplace
    exact ⟨by simpa using hplace c hc,
      fun t ht => hterm t (mem_leaves_boolean.mpr ⟨c, hc, ht⟩),
      fun g which boost h => hmulti g which boost (mem_leaves_boolean.mpr ⟨c, hc, h⟩),
      fun g which boost h => hcompiles g which boost (mem_leaves_boolean.mpr ⟨c, hc, h⟩),
      fun g which boost h => hfew g which boost (mem_leaves_boolean.mpr ⟨c, hc, h⟩)⟩
  · intro h
    refine ⟨?_, fun t ht => ?_, fun g which boost hg => ?_, fun g which boost hg => ?_,
      fun g which boost hg => ?_⟩
    · rw [hasPlaceholders, anyHasPlaceholders_eq_any, List.any_eq_false]
      exact fun c hc => by simpa using (h c hc).no_placeholder
    · obtain ⟨c, hc, htc⟩ := mem_leaves_boolean.mp ht
      exact (h c hc).field_of_term t htc
    · obtain ⟨c, hc, hgc⟩ := mem_leaves_boolean.mp hg
      exact (h c hc).field_of_multiTerm g which boost hgc
    · obtain ⟨c, hc, hgc⟩ := mem_leaves_boolean.mp hg
      exact (h c hc).compiles g which boost hgc
    · obtain ⟨c, hc, hgc⟩ := mem_leaves_boolean.mp hg
      exact (h c hc).few_terms g which boost hgc

/-- A boost around a query does not change whether it fits. -/
theorem fitsPhrase_boosted {query : Query} {boost : Float32} :
    FitsPhrase regex dictionary limit field (.boosted query boost) ↔
      FitsPhrase regex dictionary limit field query := by
  constructor
  · rintro ⟨hplace, hterm, hmulti, hcompiles, hfew⟩
    exact ⟨hplace, hterm, hmulti, hcompiles, hfew⟩
  · rintro ⟨hplace, hterm, hmulti, hcompiles, hfew⟩
    exact ⟨hplace, hterm, hmulti, hcompiles, hfew⟩

/-- Neither does a boost that is pushed into its leaves. -/
theorem fitsPhrase_boostBy {factor : Float32} {query : Query} :
    FitsPhrase regex dictionary limit field (query.boostBy factor) ↔
      FitsPhrase regex dictionary limit field query := by
  cases query with
  | term t => rw [boostBy, fitsPhrase_term, fitsPhrase_term, Term.scale]
  | multiTerm g which boost => rw [boostBy, fitsPhrase_multiTerm, fitsPhrase_multiTerm]
  | boolean children => exact fitsPhrase_boosted
  | boosted query boost => exact fitsPhrase_boosted
  | phrase id => exact fitsPhrase_boosted
  | positional clause => exact fitsPhrase_boosted

end

end

end Query

namespace Expression

variable (dictionary : Dictionary)

/-- The captured clauses of a level agree with the clauses themselves in whatever each agrees. -/
theorem map_queriesOfClauses {β : Type} {ofQuery : Query → β} {ofClause : Expression → β}
    {clauses : List (Expression × Occur)}
    (h : ∀ c ∈ clauses, ∀ first, ofQuery (c.1.query first) = ofClause c.1) (first : Nat) :
    (queriesOfClauses first clauses).map (fun c => (ofQuery c.1, c.2)) =
      clauses.map fun c => (ofClause c.1, c.2) := by
  induction clauses generalizing first with
  | nil => rfl
  | cons c rest ih =>
    have hc := h c List.mem_cons_self first
    have hrest := ih (fun c hmem => h c (List.mem_cons_of_mem _ hmem)) (first + c.1.phraseCount)
    rw [queriesOfClauses, List.map_cons, List.map_cons, hc, hrest]

/-- What holds of a captured clause just when it holds of the clause holds of all of them alike. -/
theorem forall_mem_queriesOfClauses {ofQuery : Query → Prop}
    {ofClause : Expression × Occur → Prop} {clauses : List (Expression × Occur)}
    (h : ∀ c ∈ clauses, ∀ first, ofQuery (c.1.query first) ↔ ofClause c) (first : Nat) :
    (∀ c ∈ queriesOfClauses first clauses, ofQuery c.1) ↔ ∀ c ∈ clauses, ofClause c := by
  induction clauses generalizing first with
  | nil => simp [queriesOfClauses]
  | cons c rest ih =>
    have hc := h c List.mem_cons_self first
    have hrest := ih (fun c hmem => h c (List.mem_cons_of_mem _ hmem)) (first + c.1.phraseCount)
    rw [queriesOfClauses, List.forall_mem_cons, List.forall_mem_cons, hc, hrest]

/-- Expanding the captured query gives the clause tree of the expression. -/
theorem expand_query (e : Expression) (first : Nat) :
    (e.query first).expand dictionary = e.tree dictionary := by
  induction e generalizing first with
  | term field text => rfl
  | multiTerm field which => rfl
  | phrase field raw slop => rfl
  | boolean clauses ih =>
    rw [query, Query.expand, Query.expandChildren_eq_map, tree, treesOfClauses_eq_map,
      map_queriesOfClauses ih]
  | boost clause factor ih => rw [query, Query.expand_boostBy, ih, tree]

/-- The state in which resolving ends tells whether the captured query is a construct that stands
for many terms. -/
theorem isMultiTerm_query (e : Expression) (first : Nat) :
    (e.query first).isMultiTerm = e.isExpansion := by
  induction e generalizing first with
  | term field text => rfl
  | multiTerm field which => rfl
  | phrase field raw slop => rfl
  | boolean clauses ih => rfl
  | boost clause factor ih => rw [query, Query.isMultiTerm_boostBy, ih, isExpansion]

/-- Nor is the clause tree of a whole phrase another one for the captured query. -/
theorem phraseTree_query (e : Expression) (first : Nat) :
    (e.query first).phraseTree dictionary = e.phraseTree dictionary := by
  rw [Query.phraseTree, phraseTree, isMultiTerm_query, expand_query]

/-- No call of an expression offends just when the captured query fits. -/
theorem fitsPhrase_query_iff {regex : Regex.Compiler} {limit : Nat} {field : String}
    (e : Expression) (first : Nat) :
    Query.FitsPhrase regex dictionary limit field (e.query first) ↔
      ∀ c ∈ e.calls, c.offence regex field dictionary limit = none := by
  induction e generalizing first with
  | term g text => simp [query, Query.fitsPhrase_term, calls, offence]
  | multiTerm g which =>
    simp only [query, Query.fitsPhrase_multiTerm, calls, List.mem_singleton, forall_eq,
      offence_multiTerm_eq_none_iff]
    exact and_congr_right fun hg => by rw [hg]
  | phrase g raw slop =>
    simp only [query, Query.not_fitsPhrase_phrase, calls, List.mem_singleton, forall_eq, offence,
      false_iff]
    split <;> simp
  | boolean clauses ih =>
    rw [query, Query.fitsPhrase_boolean, forall_mem_queriesOfClauses ih, calls,
      callsOfClauses_eq_flatMap, List.forall_mem_append, List.forall_mem_flatMap]
    simp [offence]
  | boost clause factor ih =>
    simp [query, Query.fitsPhrase_boostBy, ih, calls, or_imp, forall_and, offence]

end Expression

open Expression in
/-- The second reading of a phrase succeeds exactly when the first reading of its text, about the
field of the phrase, captures a query that fits the phrase, and it gives the clause tree of that
query. Of the package of regular expressions a fitting query asks no more than that it compiles the
patterns which the query holds. -/
theorem treeOf_eq_ok_iff_capture (p : Parser) (a : Anchor) (tree : ClauseTree) :
    p.treeOf a = .ok tree ↔
      ∃ query anchors,
        Parser.capture { p with config := { p.config with defaultField := a.field } } a.rawText =
          .ok (query, anchors) ∧
        query.FitsPhrase p.regex p.dictionary p.config.maxExpansions a.field ∧
        tree = query.phraseTree p.dictionary := by
  rw [p.treeOf_eq_ok_iff a tree]
  constructor
  · rintro ⟨hnone, e, he, rfl⟩
    rw [callsOfText_eq_calls he] at hnone
    have hfits := (fitsPhrase_query_iff p.dictionary e 0).mpr hnone
    have htree := phraseTree_query p.dictionary e 0
    exact ⟨e.query 0, ⟨e.anchors p.config.inOrder⟩, Parser.capture_eq_ok_iff.mpr ⟨e, he, rfl, rfl⟩,
      hfits, htree.symm⟩
  · rintro ⟨query, anchors, hcapture, hfits, rfl⟩
    obtain ⟨e, he, rfl, -⟩ := Parser.capture_eq_ok_iff.mp hcapture
    have hnone := (fitsPhrase_query_iff p.dictionary e 0).mp hfits
    have htree := phraseTree_query p.dictionary e 0
    rw [← callsOfText_eq_calls he] at hnone
    exact ⟨hnone, e, he, htree.symm⟩

/-- A pattern in parentheses fills the one position of its phrase. -/
example :
    Parser.treeOf { dictionary := .ofTerms "body" ["john", "joan", "mary"] }
        { field := "body", rawText := "(jo*)", slop := 0, inOrder := true } =
      .ok (.composite [(.anyOf [⟨"body", "joan", 1⟩, ⟨"body", "john", 1⟩], .should)]) := by
  cbv

end ProximityQuery
