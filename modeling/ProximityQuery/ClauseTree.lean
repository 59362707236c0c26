import ProximityQuery.Term

/-!
# Clause trees

The boolean tree that the text of a phrase stands for, once everything that stands for many terms
has become an optional combination of them.
-/

namespace ProximityQuery

/-- A boolean combination of terms. -/
inductive ClauseTree
  | term (t : Term)
  | composite (children : List (ClauseTree × Occur))
deriving Repr

namespace ClauseTree

/-- Induction over clause trees, with one hypothesis for every child. -/
@[elab_as_elim, induction_eliminator]
theorem ind {motive : ClauseTree → Prop} (term : ∀ t, motive (.term t))
    (composite : ∀ children, (∀ c ∈ children, motive c.1) → motive (.composite children))
    (tree : ClauseTree) : motive tree :=
  match tree with
  | .term t => term t
  | .composite children => composite children fun c _ => ind term composite c.1
termination_by sizeOf tree
decreasing_by
  have hlt := sizeOf_clause_lt ‹c ∈ children›
  simp only [ClauseTree.composite.sizeOf_spec]
  omega

mutual

/-- Multiplies the boost of every leaf. -/
def scale (factor : Float32) : ClauseTree → ClauseTree
  | .term t => .term (t.scale factor)
  | .composite children => .composite (scaleAll factor children)

/-- Multiplies the boost of every leaf of every child. -/
def scaleAll (factor : Float32) : List (ClauseTree × Occur) → List (ClauseTree × Occur)
  | [] => []
  | (child, occur) :: rest => (child.scale factor, occur) :: scaleAll factor rest

end

mutual

/-- The terms of a tree, from left to right. -/
def leaves : ClauseTree → List Term
  | .term t => [t]
  | .composite children => leavesAll children

/-- The terms of the children, from left to right. -/
def leavesAll : List (ClauseTree × Occur) → List Term
  | [] => []
  | (child, _) :: rest => child.leaves ++ leavesAll rest

end

/-- The children of a tree are scaled one by one. -/
theorem scaleAll_eq_map (factor : Float32) (children : List (ClauseTree × Occur)) :
    scaleAll factor children = children.map fun c => (c.1.scale factor, c.2) := by
  induction children with
  | nil => rfl
  | cons c rest ih => rw [scaleAll, ih, List.map_cons]

/-- The leaves of the children are those of the first, then those of the second, and so on. -/
theorem leavesAll_eq_flatMap (children : List (ClauseTree × Occur)) :
    leavesAll children = children.flatMap fun c => c.1.leaves := by
  induction children with
  | nil => rfl
  | cons c rest ih => rw [leavesAll, ih, List.flatMap_cons]

/-- The optional combination of some terms. -/
def anyOf (terms : List Term) : ClauseTree :=
  .composite (terms.map fun t => (.term t, .should))

/-- The leaves of an optional combination of terms are the terms. -/
theorem leaves_anyOf (terms : List Term) : (anyOf terms).leaves = terms := by
  rw [anyOf, leaves, leavesAll_eq_flatMap, List.flatMap_map]
  exact List.flatMap_singleton' terms

/-- An optional combination of terms is scaled term by term. -/
theorem scale_anyOf (factor : Float32) (terms : List Term) :
    (anyOf terms).scale factor = anyOf (terms.map (·.scale factor)) := by
  rw [anyOf, anyOf, scale, scaleAll_eq_map, List.map_map, List.map_map]
  rfl

end ClauseTree

end ProximityQuery
