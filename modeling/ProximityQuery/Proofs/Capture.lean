import ProximityQuery.Parser
import ProximityQuery.Proofs.Outcome

/-!
# Captured queries

What the first reading makes of an expression: the query with its phrases numbered from left to
right, and the phrases themselves in the order of their numbers. A text is captured unless it is
malformed, so nothing depends on the state in which the reading starts but the first number.
-/

namespace ProximityQuery

namespace Query

mutual

/-- The nodes of a query that have no query below them, from left to right. -/
def leaves : Query → List Query
  | .term t => [.term t]
  | .boolean children => leavesOfChildren children
  | .multiTerm field which boost => [.multiTerm field which boost]
  | .boosted query _ => query.leaves
  | .phrase id => [.phrase id]
  | .positional clause => [.positional clause]

/-- The nodes below the children that have no query below them, from left to right. -/
def leavesOfChildren : List (Query × Occur) → List Query
  | [] => []
  | (child, _) :: rest => child.leaves ++ leavesOfChildren rest

end

/-- The leaves of the children of a query are those of the first, then those of the second, and so
on. -/
theorem leavesOfChildren_eq_flatMap (children : List (Query × Occur)) :
    leavesOfChildren children = children.flatMap fun c => c.1.leaves := by
  induction children with
  | nil => rfl
  | cons c rest ih => rw [leavesOfChildren, ih, List.flatMap_cons]

/-- A leaf of a boolean query is a leaf of one of its children. -/
theorem mem_leaves_boolean {leaf : Query} {children : List (Query × Occur)} :
    leaf ∈ (boolean children).leaves ↔ ∃ c ∈ children, leaf ∈ c.1.leaves := by
  rw [leaves, leavesOfChildren_eq_flatMap, List.mem_flatMap]

end Query

namespace Expression

/-- Whether an expression is a phrase. -/
def isPhrase : Expression → Bool
  | .phrase _ _ _ => true
  | .term _ _ | .multiTerm _ _ | .boolean _ | .boost _ _ => false

/-- The anchor of an expression that is a phrase. -/
def anchor? (inOrder : Bool) : Expression → Option Anchor
  | .phrase field raw slop => some { field, rawText := raw, slop, inOrder }
  | .term _ _ | .multiTerm _ _ | .boolean _ | .boost _ _ => none

/-- The number of phrases in an expression. -/
def phraseCount (e : Expression) : Nat :=
  e.calls.countP isPhrase

/-- The anchors of the phrases in an expression, from left to right. -/
def anchors (inOrder : Bool) (e : Expression) : List Anchor :=
  e.calls.filterMap (anchor? inOrder)

/-- Every phrase has one anchor. -/
theorem length_filterMap_anchor? (inOrder : Bool) (es : List Expression) :
    (es.filterMap (anchor? inOrder)).length = es.countP isPhrase := by
  have hsome : ∀ e : Expression, (e.anchor? inOrder).isSome = e.isPhrase := by
    intro e
    cases e <;> rfl
  rw [List.length_filterMap_eq_countP, funext hsome]

mutual

/-- The query of an expression, its phrases numbered from `first` on. -/
def query (first : Nat) : Expression → Query
  | .term field text => .term { field, text }
  | .multiTerm field which => .multiTerm field which 1
  | .phrase _ _ _ => .phrase first
  | .boolean clauses => .boolean (queriesOfClauses first clauses)
  | .boost clause factor => (clause.query first).boostBy factor

/-- The queries of the clauses of a level, each numbered on from the clauses before it. -/
def queriesOfClauses (first : Nat) : List (Expression × Occur) → List (Query × Occur)
  | [] => []
  | (clause, occur) :: rest =>
    (clause.query first, occur) :: queriesOfClauses (first + clause.phraseCount) rest

end

/-- A capturing run over the clauses of a level, given that over each. -/
theorem run_buildClauses_capture {inOrder : Bool} {clauses : List (Expression × Occur)}
    (h : ∀ c ∈ clauses, ∀ queue, (c.1.build (captureBuilder inOrder)).run queue =
      (c.1.query queue.size, ⟨queue.toList ++ c.1.anchors inOrder⟩))
    (queue : AnchorQueue) :
    (buildClauses (captureBuilder inOrder) clauses).run queue =
      (queriesOfClauses queue.size clauses,
        ⟨queue.toList ++ (callsOfClauses clauses).filterMap (anchor? inOrder)⟩) := by
  induction clauses generalizing queue with
  | nil =>
    rw [callsOfClauses, List.filterMap_nil, List.append_nil]
    rfl
  | cons c rest ih =>
    have hc := h c List.mem_cons_self
    have hrest := ih fun c hmem => h c (List.mem_cons_of_mem _ hmem)
    -- the clauses after the first are numbered on from the anchors it has pushed
    have hsize : AnchorQueue.size ⟨queue.toList ++ c.1.anchors inOrder⟩ =
        queue.size + c.1.phraseCount := by
      rw [AnchorQueue.size, List.length_append, anchors, length_filterMap_anchor?]
      rfl
    simp only [buildClauses, callsOfClauses, queriesOfClauses, StateT.run_bind, StateT.run_pure,
      hc, hrest, List.filterMap_append, ← List.append_assoc, ← hsize]
    rfl

/-- Capturing an expression appends its phrases to the queue and numbers them on. -/
theorem run_build_capture (inOrder : Bool) (e : Expression) (queue : AnchorQueue) :
    (e.build (captureBuilder inOrder)).run queue =
      (e.query queue.size, ⟨queue.toList ++ e.anchors inOrder⟩) := by
  induction e generalizing queue with
  | term field text =>
    rw [anchors, calls, List.filterMap_cons_none rfl, List.filterMap_nil, List.append_nil]
    rfl
  | multiTerm field which =>
    rw [anchors, calls, List.filterMap_cons_none rfl, List.filterMap_nil, List.append_nil]
    rfl
  | phrase field raw slop => rfl
  | boolean clauses ih =>
    have h := run_buildClauses_capture ih queue
    simp only [build, anchors, calls, query, StateT.run_bind, h, List.filterMap_append,
      List.filterMap_cons_none (f := anchor? inOrder) (a := .boolean clauses) rfl,
      List.filterMap_nil, List.append_nil]
    rfl
  | boost clause factor ih =>
    simp only [build, anchors, calls, query, StateT.run_bind, ih, List.filterMap_append,
      List.filterMap_cons_none (f := anchor? inOrder) (a := .boost clause factor) rfl,
      List.filterMap_nil, List.append_nil]
    rfl

end Expression

/-- A text is captured as the query of its expression, unless it is malformed. -/
theorem capture_eq (d : Grammar.Dialect) (inOrder : Bool) (field text : String) :
    capture d inOrder field text =
      match Expression.ofText? d field text with
      | .error m => .error (.malformed m)
      | .ok e => .ok (e.query 0, ⟨e.anchors inOrder⟩) := by
  obtain ⟨o, hresult, -, hrun⟩ := exists_outcome_ofText d field text
  rw [capture, hrun, hresult]
  cases o with
  | done e =>
    simp only [Outcome.run, ExceptT.run_lift, StateT.run_map, Expression.run_build_capture]
    rfl
  | stopped completed m =>
    simp only [Outcome.run, ExceptT.run_bind_lift, StateT.run_bind]
    rfl

/-- Where capture succeeds, it gives the query and the anchors of the expression of the text. -/
theorem Parser.capture_eq_ok_iff {p : Parser} {text : String} {query : Query}
    {anchors : AnchorQueue} :
    p.capture text = .ok (query, anchors) ↔
      ∃ e, Expression.ofText? p.config.dialect p.config.defaultField text = .ok e ∧
        query = e.query 0 ∧ anchors = ⟨e.anchors p.config.inOrder⟩ := by
  rw [capture, capture_eq]
  cases Expression.ofText? p.config.dialect p.config.defaultField text with
  | error m => simp
  | ok e => simp [eq_comm]

end ProximityQuery
