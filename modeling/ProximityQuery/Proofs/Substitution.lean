import Mathlib.Data.List.Forall2
import ProximityQuery.Proofs.Capture

/-!
# Placeholders and anchors

A captured query has one placeholder for every anchor, numbered in the order of the anchors. A run
of resolution gives every anchor its tree or stops at one that has none, and where all anchors have
their trees every placeholder can be replaced.
-/

namespace ProximityQuery

namespace Query

/-- The number of a placeholder. -/
def placeholder? : Query → Option Nat
  | .phrase id => some id
  | .term _ | .boolean _ | .multiTerm _ _ _ | .boosted _ _ | .positional _ => none

/-- The numbers of the placeholders of a query, from left to right. -/
def placeholders (query : Query) : List Nat :=
  query.leaves.filterMap placeholder?

/-- The placeholders of a boolean query are those of its children in a row. -/
theorem placeholders_boolean (children : List (Query × Occur)) :
    (boolean children).placeholders = children.flatMap fun c => c.1.placeholders := by
  rw [placeholders, leaves, leavesOfChildren_eq_flatMap, List.filterMap_flatMap]
  rfl

/-- A boost does not change the placeholders. -/
theorem placeholders_boostBy (factor : Float32) (query : Query) :
    (query.boostBy factor).placeholders = query.placeholders := by
  cases query <;> rfl

mutual

/-- Puts a query in the place of every placeholder. -/
def replace (put : Nat → Query) : Query → Query
  | .phrase id => put id
  | .boolean children => .boolean (replaceAll put children)
  | .boosted query boost => .boosted (query.replace put) boost
  | .term t => .term t
  | .multiTerm field which boost => .multiTerm field which boost
  | .positional clause => .positional clause

/-- Puts a query in the place of every placeholder of the children. -/
def replaceAll (put : Nat → Query) : List (Query × Occur) → List (Query × Occur)
  | [] => []
  | (child, occur) :: rest => (child.replace put, occur) :: replaceAll put rest

end

end Query

namespace Expression

/-- The placeholders of the clauses of a level, given those of each. -/
theorem placeholders_queriesOfClauses {clauses : List (Expression × Occur)}
    (h : ∀ c ∈ clauses, ∀ first,
      (c.1.query first).placeholders = List.range' first c.1.phraseCount) (first : Nat) :
    ((queriesOfClauses first clauses).flatMap fun c => c.1.placeholders) =
      List.range' first ((callsOfClauses clauses).countP isPhrase) := by
  induction clauses generalizing first with
  | nil => rfl
  | cons c rest ih =>
    have hc := h c List.mem_cons_self first
    have hrest := ih (fun c hmem => h c (List.mem_cons_of_mem _ hmem)) (first + c.1.phraseCount)
    rw [queriesOfClauses, List.flatMap_cons, hc, hrest, callsOfClauses, List.countP_append,
      phraseCount, List.range'_append_1]

/-- The placeholders of a captured query are numbered one after the other. -/
theorem placeholders_query (e : Expression) (first : Nat) :
    (e.query first).placeholders = List.range' first e.phraseCount := by
  induction e generalizing first with
  | term field text => rfl
  | multiTerm field which => rfl
  | phrase field raw slop => rfl
  | boolean clauses ih =>
    rw [query, Query.placeholders_boolean, placeholders_queriesOfClauses ih, phraseCount, calls,
      List.countP_append]
    rfl
  | boost clause factor ih =>
    rw [query, Query.placeholders_boostBy, ih, phraseCount, phraseCount, calls, List.countP_append]
    rfl

end Expression

namespace Anchor

variable {ε : Type} {tree? : Anchor → Except ε ClauseTree}

/-- What a successful run makes of one anchor: it has its tree, the one it had or a new one. -/
def ResolvesTo (tree? : Anchor → Except ε ClauseTree) (a b : Anchor) : Prop :=
  ∃ tree, b = { a with resolved := some tree } ∧
    (a.resolved = some tree ∨ a.resolved = none ∧ tree? a = .ok tree)

/-- After a successful run every anchor has its tree. -/
theorem forall₂_of_resolveAll_ok {anchors resolved : List Anchor} {n : Nat}
    (h : resolveAll tree? anchors = (.ok n, resolved)) :
    List.Forall₂ (ResolvesTo tree?) anchors resolved := by
  induction anchors generalizing n resolved with
  | nil =>
    injection h with _ h
    exact h ▸ .nil
  | cons a rest ih =>
    rcases hrest : resolveAll tree? rest with ⟨outcome, others⟩
    rw [resolveAll, hrest] at h
    split at h
    next tree htree =>
      obtain ⟨rfl, rfl⟩ := Prod.mk.inj h
      refine .cons ⟨tree, ?_, .inl htree⟩ (ih hrest)
      rw [← htree]
    next hnone =>
      split at h
      · cases (Prod.mk.inj h).1
      next tree htree =>
        obtain ⟨houtcome, rfl⟩ := Prod.mk.inj h
        cases outcome with
        | error e => cases houtcome
        | ok m => exact .cons ⟨tree, rfl, .inr ⟨hnone, htree⟩⟩ (ih hrest)

/-- A run stops with the error of an anchor that was not resolved yet. -/
theorem exists_of_resolveAll_error {anchors resolved : List Anchor} {error : ε}
    (h : resolveAll tree? anchors = (.error error, resolved)) :
    ∃ a ∈ anchors, a.resolved = none ∧ tree? a = .error error := by
  induction anchors generalizing resolved with
  | nil => cases (Prod.mk.inj h).1
  | cons a rest ih =>
    rcases hrest : resolveAll tree? rest with ⟨outcome, others⟩
    rw [resolveAll, hrest] at h
    split at h
    · obtain ⟨rfl, -⟩ := Prod.mk.inj h
      obtain ⟨b, hb, hfail⟩ := ih hrest
      exact ⟨b, List.mem_cons_of_mem _ hb, hfail⟩
    next hnone =>
      split at h
      next e he =>
        obtain ⟨houtcome, -⟩ := Prod.mk.inj h
        injection houtcome with houtcome
        exact ⟨a, List.mem_cons_self, hnone, houtcome ▸ he⟩
      next tree htree =>
        cases outcome with
        | ok m => cases (Prod.mk.inj h).1
        | error e =>
          injection (Prod.mk.inj h).1 with houtcome
          obtain ⟨b, hb, hfail⟩ := ih (houtcome ▸ hrest)
          exact ⟨b, List.mem_cons_of_mem _ hb, hfail⟩

end Anchor

namespace Parser

variable {p : Parser} {anchors : AnchorQueue} {put : Nat → Query}

/-- Substitution succeeds in a list of children if it does in each of them. -/
theorem substituteAll_eq_ok {children : List (Query × Occur)}
    (h : ∀ c ∈ children, p.substitute anchors c.1 = .ok (c.1.replace put)) :
    p.substituteAll anchors children = .ok (Query.replaceAll put children) := by
  induction children with
  | nil => rfl
  | cons c rest ih =>
    have hc := h c List.mem_cons_self
    have hrest := ih fun c hmem => h c (List.mem_cons_of_mem _ hmem)
    rw [substituteAll, hc, hrest]
    rfl

/-- Where every placeholder stands for a query, substitution puts it there. -/
theorem substitute_eq_ok {query : Query}
    (h : ∀ id ∈ query.placeholders, p.phraseQuery anchors id = .ok (put id)) :
    p.substitute anchors query = .ok (query.replace put) := by
  induction query with
  | term t => rfl
  | multiTerm field which boost => rfl
  | positional clause => rfl
  | phrase id => exact h id (List.mem_singleton.mpr rfl)
  | boosted query boost ih =>
    rw [substitute, ih h]
    rfl
  | boolean children ih =>
    rw [Query.placeholders_boolean] at h
    have hall := substituteAll_eq_ok fun c hc =>
      ih c hc fun id hid => h id (List.mem_flatMap.mpr ⟨c, hc, hid⟩)
    rw [substitute, hall]
    rfl

end Parser

end ProximityQuery
