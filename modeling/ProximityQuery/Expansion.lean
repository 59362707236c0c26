import ProximityQuery.Dictionary
import ProximityQuery.EditDistance
import ProximityQuery.Error
import ProximityQuery.Wildcard
import ProximityQuery.Wildcard.Expression

/-!
# Expansion

The terms of a field that a pattern, a fuzzy term or a range stands for. All of them are listed, in
ascending order, or the expansion is refused because they are more than the limit. A pattern has to
be compiled first: when its expression is refused, no term is looked at.
-/

namespace ProximityQuery

/-- Whether a construct stands for a term. -/
def MultiTerm.selects (which : MultiTerm) (t : String) : Bool :=
  match which with
  | .wildcard pattern => Wildcard.isMatch pattern t
  | .fuzzy text maxEdits => editDistance t text ≤ maxEdits.toNat
  | .range interval => interval.contains t

/-- Why a construct cannot be expanded under any limit: it is a pattern whose expression is
refused. -/
def MultiTerm.refusal? (regex : Regex.Compiler) : MultiTerm → Option QueryError
  | .wildcard pattern => (Wildcard.refusal? regex pattern).map (.invalidPattern pattern)
  | .fuzzy _ _ | .range _ => none

/-- Only a pattern is refused, for what the package says of its expression. -/
theorem MultiTerm.refusal?_eq_some_iff {regex : Regex.Compiler} {which : MultiTerm}
    {error : QueryError} :
    which.refusal? regex = some error ↔
      ∃ pattern message, which = .wildcard pattern ∧
        Wildcard.refusal? regex pattern = some message ∧
        error = .invalidPattern pattern message := by
  cases which with
  | wildcard pattern =>
    rw [refusal?, Option.map_eq_some_iff]
    constructor
    · rintro ⟨message, hrefused, rfl⟩
      exact ⟨pattern, message, rfl, hrefused, rfl⟩
    · rintro ⟨_, message, hpattern, hrefused, rfl⟩
      injection hpattern with hpattern
      subst hpattern
      exact ⟨message, hrefused, rfl⟩
  | fuzzy text maxEdits => simp [refusal?]
  | range i => simp [refusal?]

/-- Lists the terms of a field behind those that are listed, and gives up at the first term that
comes when `limit` of them are. -/
def listTerms (field : String) (limit : Nat) (listed : Array String) :
    List String → Except QueryError (List String)
  | [] => .ok listed.toList
  | t :: rest =>
    if listed.size = limit then .error (.tooManyExpansions field limit)
    else listTerms field limit (listed.push t) rest

/-- All terms are listed or none, as long as no more are listed than the limit. -/
theorem listTerms_eq (field : String) {limit : Nat} (terms : List String) {listed : Array String}
    (h : listed.size ≤ limit) :
    listTerms field limit listed terms =
      if listed.size + terms.length ≤ limit then .ok (listed.toList ++ terms)
      else .error (.tooManyExpansions field limit) := by
  induction terms generalizing listed with
  | nil =>
    rw [listTerms, List.length_nil, Nat.add_zero, if_pos h, List.append_nil]
  | cons t rest ih =>
    rw [listTerms]
    by_cases hfull : listed.size = limit
    · have hmore : ¬ listed.size + (t :: rest).length ≤ limit := by
        rw [List.length_cons]
        omega
      rw [if_pos hfull, if_neg hmore]
    · have hroom : (listed.push t).size ≤ limit := by
        rw [Array.size_push]
        omega
      have hsize : (listed.push t).size + rest.length = listed.size + (t :: rest).length := by
        rw [Array.size_push, List.length_cons]
        omega
      rw [if_neg hfull, ih hroom, hsize, Array.toList_push, List.append_assoc,
        List.singleton_append]

/-- The terms of a field that a construct stands for, if it is not refused and they are at most
`limit`. -/
def Dictionary.expand (d : Dictionary) (regex : Regex.Compiler) (field : String)
    (which : MultiTerm) (limit : Nat) : Except QueryError (List String) :=
  match which.refusal? regex with
  | some error => .error error
  | none => listTerms field limit #[] ((d.terms field).filter which.selects)

end ProximityQuery
