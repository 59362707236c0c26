import Mathlib.Data.List.Basic
import ProximityQuery.Phrase.Rewrite
import ProximityQuery.Proofs.Capture

/-!
# Queries from elsewhere

What becomes of a query that is rewritten as a phrase without having been read as one. Its nodes are
looked at before its fields: the leftmost node that has no clause tree is reported, and only a query
without such a node has its terms compared with the field of the phrase. The boosts around a term are
multiplied into the boost of the term, from the inside to the outside.
-/

namespace ProximityQuery

namespace Query

mutual

/-- The clause tree of a query that stands within some boosts, the innermost of them first. A node that
has no clause tree is left out. -/
def treeWithin (boosts : List Float32) : Query → ClauseTree
  | .term t => .term { t with boost := boosts.foldl (· * ·) t.boost }
  | .boolean children => .composite (treesWithin boosts children)
  | .boosted query boost => query.treeWithin (boost :: boosts)
  | .multiTerm _ _ _ | .phrase _ | .positional _ => .composite []

/-- The clause trees of the children of a boolean query that stands within some boosts. -/
def treesWithin (boosts : List Float32) : List (Query × Occur) → List (ClauseTree × Occur)
  | [] => []
  | (child, occur) :: rest => (child.treeWithin boosts, occur) :: treesWithin boosts rest

end

example (t : Term) (inner outer : Float32) :
    (Query.boosted (.boosted (.term t) inner) outer).treeWithin [] =
      .term { t with boost := t.boost * inner * outer } := rfl

/-- The boosts around a boolean query reach each of its children. -/
theorem treesWithin_eq_map (boosts : List Float32) (children : List (Query × Occur)) :
    treesWithin boosts children = children.map fun c => (c.1.treeWithin boosts, c.2) := by
  induction children with
  | nil => rfl
  | cons c rest ih => rw [treesWithin, ih, List.map_cons]

/-- A factor for the whole tree is one more boost around all others. -/
theorem scale_treeWithin (factor : Float32) (query : Query) (boosts : List Float32) :
    (query.treeWithin boosts).scale factor = query.treeWithin (boosts ++ [factor]) := by
  induction query generalizing boosts with
  | term t => simp [treeWithin, ClauseTree.scale, Term.scale]
  | boolean children ih =>
    rw [treeWithin, treeWithin, ClauseTree.scale, ClauseTree.scaleAll_eq_map, treesWithin_eq_map,
      treesWithin_eq_map, List.map_map]
    congr 1
    exact List.map_congr_left fun c hc => by rw [Function.comp_apply, ih c hc]
  | multiTerm field which boost => rfl
  | boosted query boost ih =>
    rw [treeWithin, treeWithin, ih]
    rfl
  | phrase id => rfl
  | positional clause => rfl

/-- The term that a query is. -/
def term? : Query → Option Term
  | .term t => some t
  | .boolean _ | .multiTerm _ _ _ | .boosted _ _ | .phrase _ | .positional _ => none

/-- The fields of the terms of a query, from left to right. -/
def fields (query : Query) : List String :=
  (query.leaves.filterMap term?).map Term.field

/-- Boosts leave the fields of the terms as they are. -/
theorem map_field_leaves_treeWithin (query : Query) (boosts : List Float32) :
    (query.treeWithin boosts).leaves.map Term.field = query.fields := by
  induction query generalizing boosts with
  | term t => rfl
  | boolean children ih =>
    simp only [treeWithin, fields, leaves, leavesOfChildren_eq_flatMap, ClauseTree.leaves,
      ClauseTree.leavesAll_eq_flatMap, treesWithin_eq_map, List.flatMap_map, List.map_flatMap,
      List.filterMap_flatMap]
    exact List.flatMap_congr fun c hc => ih c hc boosts
  | multiTerm field which boost => rfl
  | boosted query boost ih => exact ih (boost :: boosts)
  | phrase id => rfl
  | positional clause => rfl

/-- A query is of the kind of terms just when it is a term. -/
theorem kind_eq_term_iff {query : Query} : query.kind = .term ↔ ∃ t, query = .term t := by
  cases query with
  | term t => simp [kind]
  | boolean children => simp [kind]
  | multiTerm field which boost => cases which <;> simp [kind, MultiTerm.kind]
  | boosted query boost => simp [kind]
  | phrase id => simp [kind]
  | positional clause => simp [kind]

/-- The term of a query is the query itself. -/
theorem term?_eq_some_iff {query : Query} {t : Term} : query.term? = some t ↔ query = .term t := by
  cases query <;> simp [term?]

/-- The fields of a query are those of the terms among its leaves. -/
theorem mem_fields {query : Query} {field : String} :
    field ∈ query.fields ↔ ∃ t, .term t ∈ query.leaves ∧ t.field = field := by
  simp only [fields, List.mem_map, List.mem_filterMap, term?_eq_some_iff, exists_eq_right]

/-- The leftmost term of another field has the first field that is another. -/
theorem find?_fields_eq_some {query : Query} {before after : List Query} {t : Term}
    {anchorField : String} (hleaves : query.leaves = before ++ .term t :: after)
    (hbefore : ∀ u, .term u ∈ before → u.field = anchorField) (ht : t.field ≠ anchorField) :
    (query.fields.find? fun field => field ≠ anchorField) = some t.field := by
  rw [List.find?_eq_some_iff_append]
  refine ⟨by simpa using ht, (before.filterMap term?).map Term.field,
    (after.filterMap term?).map Term.field, ?_, ?_⟩
  · have hterm : (term t :: after).filterMap term? = t :: after.filterMap term? :=
      List.filterMap_cons_some rfl
    rw [fields, hleaves, List.filterMap_append, hterm, List.map_append, List.map_cons]
  · refine List.forall_mem_map.mpr fun u hu => ?_
    obtain ⟨leaf, hleaf, hterm⟩ := List.mem_filterMap.mp hu
    obtain rfl := term?_eq_some_iff.mp hterm
    simpa using hbefore u hleaf

/-- The leftmost node that has no clause tree. -/
def obstacle? (query : Query) : Option Query :=
  query.leaves.find? fun leaf => leaf.kind ≠ .term

/-- Nothing is in the way of a query whose leaves are all terms. -/
theorem obstacle?_eq_none_iff {query : Query} :
    query.obstacle? = none ↔ ∀ leaf ∈ query.leaves, leaf.kind = .term := by
  simp [obstacle?]

/-- Neither an obstacle nor another field is found just when every leaf is a term of the field. -/
theorem forall_mem_leaves_iff {query : Query} {anchorField : String} :
    (∀ leaf ∈ query.leaves, ∃ t, leaf = .term t ∧ t.field = anchorField) ↔
      query.obstacle? = none ∧ (query.fields.find? fun field => field ≠ anchorField) = none := by
  simp only [obstacle?_eq_none_iff, List.find?_eq_none, decide_eq_true_eq, not_not, mem_fields,
    kind_eq_term_iff]
  constructor
  · intro h
    refine ⟨fun leaf hleaf => ?_, ?_⟩
    · obtain ⟨t, ht, -⟩ := h leaf hleaf
      exact ⟨t, ht⟩
    · rintro field ⟨t, hleaf, rfl⟩
      obtain ⟨u, hu, hfield⟩ := h _ hleaf
      rwa [Query.term.inj hu]
  · rintro ⟨hterms, hfields⟩ leaf hleaf
    obtain ⟨t, rfl⟩ := hterms leaf hleaf
    exact ⟨t, rfl, hfields t.field ⟨t, hleaf, rfl⟩⟩

/-- The first leaf that is no term is in the way. -/
theorem obstacle?_eq_some {query : Query} {before after : List Query} {node : Query}
    (hleaves : query.leaves = before ++ node :: after)
    (hbefore : ∀ leaf ∈ before, leaf.kind = .term) (hnode : node.kind ≠ .term) :
    query.obstacle? = some node :=
  List.find?_eq_some_iff_append.mpr
    ⟨by simpa using hnode, before, after, hleaves, fun leaf hleaf => by simpa using hbefore leaf hleaf⟩

/-- The clause trees of the children of a boolean query, given that of each child. -/
theorem toClauseTrees?_eq {children : List (Query × Occur)}
    (h : ∀ c ∈ children, c.1.toClauseTree? =
      match c.1.obstacle? with
      | some node => .error (.unsupportedClause (.kind node.kind))
      | none => .ok (c.1.treeWithin [])) :
    toClauseTrees? children =
      match (leavesOfChildren children).find? fun leaf => leaf.kind ≠ .term with
      | some node => .error (.unsupportedClause (.kind node.kind))
      | none => .ok (treesWithin [] children) := by
  induction children with
  | nil => rfl
  | cons c rest ih =>
    have hc := h c List.mem_cons_self
    have hrest := ih fun c hmem => h c (List.mem_cons_of_mem _ hmem)
    rw [toClauseTrees?, leavesOfChildren, List.find?_append, hc, hrest, treesWithin]
    cases hchild : c.1.obstacle? with
    | some node =>
      rw [obstacle?] at hchild
      rw [hchild]
      rfl
    | none =>
      rw [obstacle?] at hchild
      rw [hchild, Option.none_or]
      cases (leavesOfChildren rest).find? fun leaf => leaf.kind ≠ .term <;> rfl

/-- A query has a clause tree unless there is an obstacle, which is reported. -/
theorem toClauseTree?_eq (query : Query) :
    query.toClauseTree? =
      match query.obstacle? with
      | some node => .error (.unsupportedClause (.kind node.kind))
      | none => .ok (query.treeWithin []) := by
  induction query with
  | term t => rfl
  | boolean children ih =>
    rw [toClauseTree?, toClauseTrees?_eq ih, obstacle?, leaves]
    cases (leavesOfChildren children).find? fun leaf => leaf.kind ≠ .term <;> rfl
  | multiTerm field which boost => cases which <;> rfl
  | boosted query boost ih =>
    have hobstacle : (boosted query boost).obstacle? = query.obstacle? := rfl
    rw [toClauseTree?, ih, hobstacle]
    cases query.obstacle? with
    | some node => rfl
    | none => exact congrArg Except.ok (scale_treeWithin boost query [])
  | phrase id => rfl
  | positional clause => rfl

end Query

/-- The leftmost field that is not that of the phrase is reported. -/
theorem ClauseTree.requireField_eq (anchorField : String) (tree : ClauseTree) :
    tree.requireField anchorField =
      match (tree.leaves.map Term.field).find? fun field => field ≠ anchorField with
      | some field => .error (.fieldMismatch field anchorField)
      | none => .ok () := by
  rw [requireField]
  induction tree.leaves with
  | nil => rfl
  | cons t rest ih =>
    by_cases ht : t.field = anchorField
    · have hfirst : ProximityQuery.requireField t.field anchorField = .ok () := if_pos ht
      rw [List.forM, hfirst, List.map_cons, List.find?_cons_of_neg (by simpa using ht)]
      exact ih
    · have hfirst : ProximityQuery.requireField t.field anchorField =
        .error (.fieldMismatch t.field anchorField) := if_neg ht
      rw [List.forM, hfirst, List.map_cons, List.find?_cons_of_pos (by simpa using ht)]
      rfl

/-- A query is rewritten unless a node has no clause tree or, after that, a field is another. -/
theorem Rewriter.rewriteQuery_eq (r : Rewriter) (query : Query) :
    r.rewriteQuery query =
      match query.obstacle? with
      | some node => .error (.unsupportedClause (.kind node.kind))
      | none =>
        match query.fields.find? fun field => field ≠ r.field with
        | some field => .error (.fieldMismatch field r.field)
        | none => .ok (r.rewrite (query.treeWithin [])) := by
  rw [rewriteQuery, query.toClauseTree?_eq]
  cases query.obstacle? with
  | some node => rfl
  | none =>
    have hfields := (query.treeWithin []).requireField_eq r.field
    rw [query.map_field_leaves_treeWithin] at hfields
    change ((query.treeWithin []).requireField r.field >>= fun _ =>
      pure (r.rewrite (query.treeWithin []))) = _
    rw [hfields]
    cases query.fields.find? fun field => field ≠ r.field <;> rfl

/-- The outcome for a query from elsewhere. It is rewritten just when it is made of boolean
combinations, boosts and terms, all of them of the field of the phrase, and then as the clause tree of
the same shape in which every term has its boost multiplied by those around it, from the inside to the
outside. Any other node is refused, the leftmost one with its kind, whatever the fields of the terms
are; and where there is none, the leftmost term of another field is. -/
theorem Rewriter.rewriteQuery_outcome (r : Rewriter) (query : Query) :
    ((∃ result, r.rewriteQuery query = .ok result) ↔
      ∀ leaf ∈ query.leaves, ∃ t, leaf = .term t ∧ t.field = r.field) ∧
    (∀ result, r.rewriteQuery query = .ok result → result = r.rewrite (query.treeWithin [])) ∧
    (∀ before node after, query.leaves = before ++ node :: after →
      (∀ leaf ∈ before, leaf.kind = .term) → node.kind ≠ .term →
      r.rewriteQuery query = .error (.unsupportedClause (.kind node.kind))) ∧
    (∀ before t after, query.leaves = before ++ .term t :: after →
      (∀ leaf ∈ query.leaves, leaf.kind = .term) →
      (∀ u, .term u ∈ before → u.field = r.field) → t.field ≠ r.field →
      r.rewriteQuery query = .error (.fieldMismatch t.field r.field)) := by
  have hok : ∀ result, r.rewriteQuery query = .ok result ↔
      (∀ leaf ∈ query.leaves, ∃ t, leaf = .term t ∧ t.field = r.field) ∧
        result = r.rewrite (query.treeWithin []) := by
    intro result
    rw [Query.forall_mem_leaves_iff, r.rewriteQuery_eq]
    cases query.obstacle? with
    | some node => simp
    | none =>
      cases query.fields.find? fun field => field ≠ r.field with
      | some field => simp
      | none => simp [eq_comm]
  refine ⟨?_, fun result h => ((hok result).mp h).2, ?_, ?_⟩
  · exact ⟨fun ⟨result, h⟩ => ((hok result).mp h).1, fun h => ⟨_, (hok _).mpr ⟨h, rfl⟩⟩⟩
  · intro before node after hleaves hbefore hnode
    rw [r.rewriteQuery_eq, Query.obstacle?_eq_some hleaves hbefore hnode]
  · intro before t after hleaves hterms hbefore hfield
    rw [r.rewriteQuery_eq, Query.obstacle?_eq_none_iff.mpr hterms]
    dsimp only
    rw [Query.find?_fields_eq_some hleaves hbefore hfield]

end ProximityQuery
