import ProximityQuery.Proofs.Influence
import ProximityQuery.Proofs.NormalForm
import ProximityQuery.Session

/-!
# The order of words

Whether the words of a phrase have to come in order is a setting that is copied into every anchor and
from there into every sequence of the rewritten phrase. It decides nothing else: with the plain
factory of words two parsers that differ in this setting fail alike or give trees that differ in the
flags of their sequences. Each stage of a parse is shown to commute with setting the flag. After
capture the setting is not looked at any more, whatever the factory.
-/

namespace ProximityQuery

namespace Positional

mutual

/-- Sets the flag of every sequence in a clause. -/
def withOrder (inOrder : Bool) : Positional → Positional
  | .term t => .term t
  | .near clauses slop _ => .near (withOrderAll inOrder clauses) slop inOrder
  | .or clauses => .or (withOrderAll inOrder clauses)
  | .not included excluded => .not (included.withOrder inOrder) (excluded.withOrder inOrder)

/-- Sets the flag of every sequence in some clauses. -/
def withOrderAll (inOrder : Bool) : List Positional → List Positional
  | [] => []
  | clause :: rest => clause.withOrder inOrder :: withOrderAll inOrder rest

end

variable {inOrder : Bool}

/-- The order is changed in each clause of a list. -/
theorem withOrderAll_eq_map (inOrder : Bool) (clauses : List Positional) :
    withOrderAll inOrder clauses = clauses.map (withOrder inOrder) := by
  induction clauses with
  | nil => rfl
  | cons clause rest ih => rw [withOrderAll, ih, List.map_cons]

/-- Every sequence in a clause has the flag that is set. -/
theorem eq_of_near_mem_withOrder {clause : Positional} {clauses : List Positional} {slop : UInt32}
    {flag : Bool} (h : .near clauses slop flag ∈ (clause.withOrder inOrder).subclauses) :
    flag = inOrder := by
  induction clause with
  | term t =>
    rw [withOrder, subclauses, List.mem_singleton] at h
    cases h
  | near others slop' flag' ih =>
    rw [withOrder, subclauses, withOrderAll_eq_map, subclausesOfAll_eq_flatMap,
      List.flatMap_map] at h
    rcases List.mem_cons.mp h with heq | hbelow
    · injection heq
    · obtain ⟨c, hc, hmem⟩ := List.mem_flatMap.mp hbelow
      exact ih c hc hmem
  | or others ih =>
    rw [withOrder, subclauses, withOrderAll_eq_map, subclausesOfAll_eq_flatMap,
      List.flatMap_map] at h
    rcases List.mem_cons.mp h with heq | hbelow
    · cases heq
    · obtain ⟨c, hc, hmem⟩ := List.mem_flatMap.mp hbelow
      exact ih c hc hmem
  | not included excluded ihincluded ihexcluded =>
    rw [withOrder, subclauses] at h
    rcases List.mem_cons.mp h with heq | hbelow
    · cases heq
    · rcases List.mem_append.mp hbelow with hmem | hmem
      · exact ihincluded hmem
      · exact ihexcluded hmem

/-- A clause that takes one position has no flag to be set. -/
theorem withOrder_of_nearFree {clause : Positional} (h : clause.nearFree = true) :
    clause.withOrder inOrder = clause := by
  induction clause with
  | term t => rfl
  | near clauses slop flag => cases h
  | or clauses ih =>
    rw [nearFree, allNearFree_eq_all, List.all_eq_true] at h
    have hclauses : clauses.map (withOrder inOrder) = clauses := by
      rw [List.map_congr_left fun c hc => ih c hc (h c hc), List.map_id']
    rw [withOrder, withOrderAll_eq_map, hclauses]
  | not included excluded ihincluded ihexcluded =>
    rw [nearFree, Bool.and_eq_true] at h
    rw [withOrder, ihincluded h.1, ihexcluded h.2]

/-- Of a sequence of clauses that take one position each, the flag alone is set. -/
theorem withOrder_near_of_nearFree {clauses : List Positional}
    (h : ∀ c ∈ clauses, c.nearFree = true) (slop : UInt32) (flag : Bool) :
    (near clauses slop flag).withOrder inOrder = near clauses slop inOrder := by
  have hclauses : clauses.map (withOrder inOrder) = clauses := by
    rw [List.map_congr_left fun c hc => withOrder_of_nearFree (h c hc), List.map_id']
  rw [withOrder, withOrderAll_eq_map, hclauses]

end Positional

namespace Query

mutual

/-- Sets the flag of every sequence in a query. -/
def withOrder (inOrder : Bool) : Query → Query
  | .positional clause => .positional (clause.withOrder inOrder)
  | .boolean children => .boolean (withOrderAll inOrder children)
  | .boosted query boost => .boosted (query.withOrder inOrder) boost
  | .term t => .term t
  | .multiTerm field which boost => .multiTerm field which boost
  | .phrase id => .phrase id

/-- Sets the flag of every sequence in the children of a boolean query. -/
def withOrderAll (inOrder : Bool) : List (Query × Occur) → List (Query × Occur)
  | [] => []
  | (child, occur) :: rest => (child.withOrder inOrder, occur) :: withOrderAll inOrder rest

end

/-- Whether every sequence of a query, wherever it stands, has this flag. -/
def HasOrder (inOrder : Bool) (query : Query) : Prop :=
  ∀ clause, .positional clause ∈ query.leaves →
    ∀ clauses slop flag, .near clauses slop flag ∈ clause.subclauses → flag = inOrder

variable {inOrder : Bool}

/-- The order is changed in each child of a query. -/
theorem withOrderAll_eq_map (inOrder : Bool) (children : List (Query × Occur)) :
    withOrderAll inOrder children = children.map fun c => (c.1.withOrder inOrder, c.2) := by
  induction children with
  | nil => rfl
  | cons c rest ih => rw [withOrderAll, ih, List.map_cons]

/-- A query whose order is changed has that order in every phrase. -/
theorem hasOrder_withOrder (inOrder : Bool) (query : Query) :
    (query.withOrder inOrder).HasOrder inOrder := by
  intro clause hclause
  induction query with
  | positional other =>
    rw [withOrder, leaves, List.mem_singleton] at hclause
    injection hclause with hclause
    intro clauses slop flag hnear
    rw [hclause] at hnear
    exact Positional.eq_of_near_mem_withOrder hnear
  | boolean children ih =>
    rw [withOrder, withOrderAll_eq_map] at hclause
    obtain ⟨_, hmem, hleaf⟩ := mem_leaves_boolean.mp hclause
    obtain ⟨c, hc, rfl⟩ := List.mem_map.mp hmem
    exact ih c hc hleaf
  | boosted query boost ih => exact ih hclause
  | term t => cases List.mem_singleton.mp hclause
  | multiTerm field which boost => cases List.mem_singleton.mp hclause
  | phrase id => cases List.mem_singleton.mp hclause

/-- A boost and a change of the order do not get in the way of each other. -/
theorem withOrder_boostBy (query : Query) (factor : Float32) :
    (query.boostBy factor).withOrder inOrder = (query.withOrder inOrder).boostBy factor := by
  cases query with
  | term t => rfl
  | boolean children => rfl
  | multiTerm field which boost => rfl
  | boosted query boost => rfl
  | phrase id => rfl
  | positional clause => rfl

end Query

namespace Anchor

/-- Sets the flag of an anchor. -/
def withOrder (inOrder : Bool) (a : Anchor) : Anchor :=
  { a with inOrder }

/-- Flags go along with a run of resolution that does not look at them. -/
theorem resolveAll_withOrder {ε : Type} {tree? : Anchor → Except ε ClauseTree} {inOrder : Bool}
    (h : ∀ a : Anchor, tree? (a.withOrder inOrder) = tree? a) (anchors : List Anchor) :
    resolveAll tree? (anchors.map (withOrder inOrder)) =
      ((resolveAll tree? anchors).1, (resolveAll tree? anchors).2.map (withOrder inOrder)) := by
  induction anchors with
  | nil => rfl
  | cons a rest ih =>
    have hresolved : (a.withOrder inOrder).resolved = a.resolved := rfl
    rw [List.map_cons, resolveAll, resolveAll, ih, hresolved, h]
    cases a.resolved with
    | some tree => rfl
    | none =>
      cases tree? a with
      | error error => rfl
      | ok tree => rfl

end Anchor

/-- Sets the flag of every anchor of a queue. -/
def AnchorQueue.withOrder (inOrder : Bool) (anchors : AnchorQueue) : AnchorQueue :=
  ⟨anchors.toList.map (Anchor.withOrder inOrder)⟩

namespace Expression

/-- The captured clauses of a level have no order to change if none of them has. -/
theorem withOrderAll_queriesOfClauses {inOrder : Bool} {clauses : List (Expression × Occur)}
    (h : ∀ c ∈ clauses, ∀ first, (c.1.query first).withOrder inOrder = c.1.query first)
    (first : Nat) :
    Query.withOrderAll inOrder (queriesOfClauses first clauses) =
      queriesOfClauses first clauses := by
  induction clauses generalizing first with
  | nil => rfl
  | cons c rest ih =>
    have hc := h c List.mem_cons_self first
    have hrest := ih fun d hd => h d (List.mem_cons_of_mem _ hd)
    rw [queriesOfClauses, Query.withOrderAll, hc, hrest]

/-- What is captured has no flags but those of the anchors. -/
theorem withOrder_query (inOrder : Bool) (e : Expression) (first : Nat) :
    (e.query first).withOrder inOrder = e.query first := by
  induction e generalizing first with
  | term field text => rfl
  | multiTerm field which => rfl
  | phrase field raw slop => rfl
  | boost clause factor ih => rw [query, Query.withOrder_boostBy, ih]
  | boolean clauses ih => rw [query, Query.withOrder, withOrderAll_queriesOfClauses ih]

/-- The order that is asked for is written into the anchors and has no say in which they are. -/
theorem anchors_eq_map (inOrder inOrder' : Bool) (e : Expression) :
    e.anchors inOrder = (e.anchors inOrder').map (Anchor.withOrder inOrder) := by
  rw [anchors, anchors, List.map_filterMap]
  refine List.filterMap_congr fun call _ => ?_
  cases call with
  | phrase field raw slop => rfl
  | term field text => rfl
  | multiTerm field which => rfl
  | boolean clauses => rfl
  | boost clause factor => rfl

end Expression

namespace Rewriter

/-- Of a phrase whose slots take one position each, the order of its words is in the flags alone. -/
theorem assemble_withOrder (r : Rewriter) (inOrder : Bool) {slots kept : List Positional}
    (hslots : ∀ c ∈ slots, c.nearFree = true) (hkept : ∀ c ∈ kept, c.nearFree = true)
    (prohibited : Nat) :
    { r with inOrder }.assemble slots kept prohibited =
      (r.assemble slots kept prohibited).withOrder inOrder := by
  by_cases hnone : prohibited = 0
  · rw [hnone, assemble_of_none_prohibited, assemble_of_none_prohibited,
      Positional.withOrder_near_of_nearFree hslots]
  by_cases hone : kept.length = 1
  · obtain ⟨only, rfl⟩ := List.length_eq_one_iff.mp hone
    have honly := hkept only (List.mem_singleton.mpr rfl)
    rw [assemble_of_one_kept _ _ _ hnone, assemble_of_one_kept _ _ _ hnone, Positional.withOrder,
      Positional.withOrder_near_of_nearFree hslots, Positional.withOrder_of_nearFree honly]
  · rw [assemble_of_some_kept _ _ hnone hone, assemble_of_some_kept _ _ hnone hone,
      Positional.withOrder, Positional.withOrder_near_of_nearFree hslots,
      Positional.withOrder_near_of_nearFree hkept]

/-- The order that is asked of plain words is in the flags of their sequences alone. -/
theorem rewrite_withOrder {r : Rewriter} (hr : r.factory = Positional.plainTerm) (inOrder : Bool)
    (tree : ClauseTree) :
    { r with inOrder }.rewrite tree = (r.rewrite tree).withOrder inOrder := by
  cases tree with
  | term t => rfl
  | composite children =>
    have hposition : ∀ c : ClauseTree × Occur,
        { r with inOrder }.position c.1 = r.position c.1 := by
      intro c
      have hfield : { r with inOrder }.field = r.field := rfl
      exact position_eq_of_factory hfield rfl c.1
    have hslots : ∀ cs : List (ClauseTree × Occur),
        ∀ clause ∈ cs.map fun c => r.position c.1, clause.nearFree = true := by
      intro cs clause hclause
      obtain ⟨c, -, rfl⟩ := List.mem_map.mp hclause
      exact nearFree_position hr c.1
    rw [rewrite, rewrite, Query.withOrder, sequence_eq_assemble, sequence_eq_assemble]
    simp only [hposition]
    rw [assemble_withOrder r inOrder (hslots children) (hslots _)]

end Rewriter

/-- The order that is asked for enters into what is captured as the flag of each anchor. -/
theorem capture_order (d : Grammar.Dialect) (inOrder inOrder' : Bool) (field text : String) :
    capture d inOrder field text =
      (capture d inOrder' field text).map fun c => (c.1, c.2.withOrder inOrder) := by
  rw [capture_eq, capture_eq]
  cases Expression.ofText? d field text with
  | error m => rfl
  | ok e =>
    dsimp only
    rw [e.anchors_eq_map inOrder inOrder']
    rfl

namespace Parser

variable {p : Parser}

/-- Under another order the same query is captured, and the same anchors but for their order. -/
theorem capture_setInOrder (p : Parser) (inOrder : Bool) (text : String) :
    (p.setInOrder inOrder).capture text =
      (p.capture text).map fun c => (c.1, c.2.withOrder inOrder) :=
  capture_order _ _ _ _ _

/-- Flags go along with resolution. -/
theorem resolve_withOrder (p : Parser) (inOrder : Bool) (anchors : AnchorQueue) :
    p.resolve (anchors.withOrder inOrder) =
      ((p.resolve anchors).1, (p.resolve anchors).2.withOrder inOrder) := by
  rw [resolve, resolve, AnchorQueue.withOrder, Anchor.resolveAll_withOrder fun _ => rfl]
  rfl

/-- The query of an anchor with another order is the query of the anchor with the order changed. -/
theorem phraseQuery_withOrder (hp : p.factory = Positional.plainTerm) (inOrder : Bool)
    (anchors : AnchorQueue) (id : Nat) :
    p.phraseQuery (anchors.withOrder inOrder) id =
      (p.phraseQuery anchors id).map (Query.withOrder inOrder) := by
  have hget : (anchors.withOrder inOrder).get? id =
      (anchors.get? id).map (Anchor.withOrder inOrder) :=
    List.getElem?_map
  rw [phraseQuery, phraseQuery, hget]
  cases anchors.get? id with
  | none => rfl
  | some a =>
    have hresolved : (a.withOrder inOrder).resolved = a.resolved := rfl
    rw [Option.map_some]
    dsimp only
    rw [hresolved]
    cases a.resolved with
    | none => rfl
    | some tree =>
      exact congrArg Except.ok (Rewriter.rewrite_withOrder (r := p.rewriterOf a) hp inOrder tree)

/-- In a list of children the order can be changed before the placeholders are replaced or after. -/
theorem substituteAll_withOrder {inOrder : Bool} {anchors : AnchorQueue}
    {children : List (Query × Occur)}
    (h : ∀ c ∈ children, p.substitute (anchors.withOrder inOrder) (c.1.withOrder inOrder) =
      (p.substitute anchors c.1).map (Query.withOrder inOrder)) :
    p.substituteAll (anchors.withOrder inOrder) (Query.withOrderAll inOrder children) =
      (p.substituteAll anchors children).map (Query.withOrderAll inOrder) := by
  induction children with
  | nil => rfl
  | cons c rest ih =>
    have hc := h c List.mem_cons_self
    have hrest := ih fun d hd => h d (List.mem_cons_of_mem _ hd)
    rw [Query.withOrderAll, substituteAll, substituteAll, hc, hrest]
    cases p.substitute anchors c.1 with
    | error error => rfl
    | ok result =>
      cases p.substituteAll anchors rest with
      | error error => rfl
      | ok results => rfl

/-- Setting the flags before substitution sets them in what it yields. -/
theorem substitute_withOrder (hp : p.factory = Positional.plainTerm) (inOrder : Bool)
    (anchors : AnchorQueue) (query : Query) :
    p.substitute (anchors.withOrder inOrder) (query.withOrder inOrder) =
      (p.substitute anchors query).map (Query.withOrder inOrder) := by
  induction query with
  | term t => rfl
  | multiTerm field which boost => rfl
  | positional clause => rfl
  | phrase id =>
    rw [Query.withOrder, substitute, substitute]
    exact phraseQuery_withOrder hp inOrder anchors id
  | boosted query boost ih =>
    rw [Query.withOrder, substitute, substitute, ih]
    cases p.substitute anchors query with
    | error error => rfl
    | ok result => rfl
  | boolean children ih =>
    rw [Query.withOrder, substitute, substitute, substituteAll_withOrder ih]
    cases p.substituteAll anchors children with
    | error error => rfl
    | ok results => rfl

/-- The order that later phrases ask for does not enter into resolution. -/
theorem resolve_setInOrder (p : Parser) (inOrder : Bool) (anchors : AnchorQueue) :
    (p.setInOrder inOrder).resolve anchors = p.resolve anchors :=
  rfl

/-- Nor does it enter into substitution. -/
theorem substitute_setInOrder (p : Parser) (inOrder : Bool) (anchors : AnchorQueue)
    (query : Query) :
    (p.setInOrder inOrder).substitute anchors query = p.substitute anchors query := by
  have hfactory : (p.setInOrder inOrder).factory = p.factory := rfl
  exact substitute_congr hfactory anchors query

/-- With plain words, a parse in another order is the parse with the other flag in every sequence. -/
theorem parse_setInOrder (hp : p.factory = Positional.plainTerm) (inOrder : Bool) (text : String) :
    (p.setInOrder inOrder).parse text = (p.parse text).map (Query.withOrder inOrder) := by
  rw [parse, parse, capture_setInOrder]
  cases hcapture : p.capture text with
  | error error => rfl
  | ok captured =>
    obtain ⟨query, anchors⟩ := captured
    have hquery : query.withOrder inOrder = query := by
      obtain ⟨e, -, rfl, -⟩ := capture_eq_ok_iff.mp hcapture
      exact e.withOrder_query inOrder 0
    have hmap : (Except.ok (query, anchors)).map (fun c => (c.1, c.2.withOrder inOrder)) =
        (Except.ok (query, anchors.withOrder inOrder) : Except QueryError _) := rfl
    rw [hmap, ok_bind, ok_bind]
    dsimp only
    rw [resolve_setInOrder, resolve_withOrder]
    rcases hresolve : p.resolve anchors with ⟨outcome, resolved⟩
    cases outcome with
    | error error => rfl
    | ok n =>
      dsimp only
      rw [substitute_setInOrder, ← substitute_withOrder hp, hquery]

/-- What becomes of a captured query when one parser resolves its phrases and another replaces the
placeholders. -/
def finish (resolving replacing : Parser) (query : Query) (anchors : AnchorQueue) :
    Except QueryError Query :=
  match resolving.resolve anchors with
  | (.error error, _) => .error error
  | (.ok _, resolved) => replacing.substitute resolved query

/-- A parse is a capture that the parser itself finishes. -/
theorem parse_eq_finish (p : Parser) (text : String) :
    p.parse text = p.capture text >>= fun c => p.finish p c.1 c.2 :=
  rfl

/-- After capture the setting is not looked at any more. -/
theorem finish_setInOrder (p : Parser) (atResolution atSubstitution : Bool) (query : Query)
    (anchors : AnchorQueue) :
    (p.setInOrder atResolution).finish (p.setInOrder atSubstitution) query anchors =
      p.finish p query anchors := by
  rw [finish, finish, resolve_setInOrder]
  split
  · rfl
  · exact p.substitute_setInOrder atSubstitution _ _

end Parser

/-- With plain words, a text is refused for the same error in both orders, or it is parsed in both; the
results differ in the flags of their sequences and nowhere else, and every sequence has the flag of
the order that was asked for. Whatever the factory, the order that is set after capture does not
enter into what is made of the captured phrases. -/
theorem parse_in_both_orders (config : Config) (regex : Regex.Compiler) (dictionary : Dictionary)
    (text : String) :
    (let parser (inOrder : Bool) : Parser :=
      { config := { config with inOrder }, regex, dictionary }
    (∃ error, (parser true).parse text = .error error ∧ (parser false).parse text = .error error) ∨
      ∃ ordered unordered, (parser true).parse text = .ok ordered ∧
        (parser false).parse text = .ok unordered ∧
        ordered = unordered.withOrder true ∧ unordered = ordered.withOrder false ∧
        ordered.HasOrder true ∧ unordered.HasOrder false) ∧
    ∀ (factory : LeafFactory) (atCapture atResolution atSubstitution : Bool),
      let parser (inOrder : Bool) : Parser :=
        { config := { config with inOrder }, regex, dictionary, factory }
      ((parser atCapture).capture text >>= fun c =>
        (parser atResolution).finish (parser atSubstitution) c.1 c.2) =
          (parser atCapture).parse text := by
  constructor
  · intro parser
    have hordered : (parser true).parse text =
        ((parser false).parse text).map (Query.withOrder true) :=
      Parser.parse_setInOrder (p := parser false) rfl true text
    have hunordered : (parser false).parse text =
        ((parser true).parse text).map (Query.withOrder false) :=
      Parser.parse_setInOrder (p := parser true) rfl false text
    cases hresult : (parser false).parse text with
    | error error =>
      rw [hresult] at hordered
      exact .inl ⟨error, hordered, rfl⟩
    | ok unordered =>
      rw [hresult] at hordered
      rw [hordered, hresult] at hunordered
      have hback : unordered = (unordered.withOrder true).withOrder false :=
        Except.ok.inj hunordered
      refine .inr ⟨_, unordered, hordered, rfl, rfl, hback, Query.hasOrder_withOrder true unordered,
        ?_⟩
      rw [hback]
      exact Query.hasOrder_withOrder false _
  · intro factory atCapture atResolution atSubstitution parser
    rw [Parser.parse_eq_finish]
    refine bind_congr fun c => ?_
    exact (parser atCapture).finish_setInOrder atResolution atSubstitution c.1 c.2

/-- A phrase with a prohibited word has two sequences, one of them in an exclusion. -/
example :
    let parser (inOrder : Bool) : Parser := { config := { inOrder } }
    let word (text : String) : Positional := .term { field := "body", text }
    let result (inOrder : Bool) : Query := .positional
      (.not (.near [word "a", word "b"] 2 inOrder)
        (.near [word "a", word "b", word "c"] 1 inOrder))
    (parser true).parse "\"a b -c\"~1" = .ok (result true) ∧
      (parser false).parse "\"a b -c\"~1" = .ok (result false) :=
  ⟨by cbv, by cbv⟩

end ProximityQuery
