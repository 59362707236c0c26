import ProximityQuery.Parser
import ProximityQuery.Proofs.Outcome

/-!
# Resolution of phrases

What the second reading makes of a phrase, as a function of the calls of hooks that its text leads
to. The first call that offends decides the error; when none does, the outcome of the text decides
it, and the tree of the phrase follows from the expression alone.
-/

namespace ProximityQuery

/-- The terms of a field that a construct stands for, in ascending order. -/
def Dictionary.selected (d : Dictionary) (field : String) (which : MultiTerm) : List String :=
  (d.terms field).filter which.selects

section

variable {d : Dictionary} {regex : Regex.Compiler} {field : String} {which : MultiTerm} {limit : Nat}

/-- A refused construct is refused before the dictionary and the limit are looked at. -/
theorem Dictionary.expand_eq_of_refused {error : QueryError}
    (h : which.refusal? regex = some error) :
    d.expand regex field which limit = .error error := by
  rw [expand, h]

/-- A construct that is not refused is expanded to its terms, if they are not too many. -/
theorem Dictionary.expand_eq_of_accepted (h : which.refusal? regex = none) :
    d.expand regex field which limit =
      if (d.selected field which).length ≤ limit then .ok (d.selected field which)
      else .error (.tooManyExpansions field limit) := by
  have hempty : (#[] : Array String).size ≤ limit := Nat.zero_le limit
  have hlisted := listTerms_eq field (d.selected field which) hempty
  have hsize : (#[] : Array String).size + (d.selected field which).length =
      (d.selected field which).length := Nat.zero_add _
  rw [hsize] at hlisted
  rw [expand, h]
  exact hlisted

/-- An expansion that succeeds lists the terms that the construct stands for. -/
theorem Dictionary.eq_selected_of_expand_eq_ok {terms : List String}
    (h : d.expand regex field which limit = .ok terms) : terms = d.selected field which := by
  cases hrefusal : which.refusal? regex with
  | some error =>
    rw [expand_eq_of_refused hrefusal] at h
    cases h
  | none =>
    rw [expand_eq_of_accepted hrefusal] at h
    split at h
    · exact (Except.ok.inj h).symm
    · cases h

end

/-- What follows a success is what follows its value. -/
theorem ok_bind {ε β γ : Type} (x : β) (next : β → Except ε γ) :
    ((Except.ok x : Except ε β) >>= next) = next x := rfl

namespace Expression

section

variable (regex : Regex.Compiler) (anchorField : String) (dictionary : Dictionary) (limit : Nat)

/-- The error of a call inside a phrase about `anchorField`: a clause of another field, a phrase, a
pattern that is refused, or a construct that stands for more than `limit` terms. The field is looked
at first, and the pattern before its terms. -/
def offence : Expression → Option QueryError
  | .term field _ =>
    if field = anchorField then none else some (.fieldMismatch field anchorField)
  | .multiTerm field which =>
    if field = anchorField then
      match which.refusal? regex with
      | some error => some error
      | none =>
        if (dictionary.selected field which).length ≤ limit then none
        else some (.tooManyExpansions field limit)
    else some (.fieldMismatch field anchorField)
  | .phrase field _ _ =>
    if field = anchorField then some (.unsupportedClause .nestedPhrase)
    else some (.fieldMismatch field anchorField)
  | .boolean _ | .boost _ _ => none

section

variable {regex anchorField dictionary limit} {field : String} {which : MultiTerm}

/-- A construct that stands for many terms does not offend just when it is about the field, is not
refused and does not stand for too many. -/
theorem offence_multiTerm_eq_none_iff :
    offence regex anchorField dictionary limit (.multiTerm field which) = none ↔
      field = anchorField ∧ which.refusal? regex = none ∧
        (dictionary.selected field which).length ≤ limit := by
  rw [offence]
  by_cases hfield : field = anchorField
  · cases hrefusal : which.refusal? regex with
    | some error => simp [hfield]
    | none => simp [hfield]
  · simp [hfield]

/-- The errors of such a construct, each where those before it do not arise. -/
theorem offence_multiTerm_eq_some {error : QueryError}
    (h : offence regex anchorField dictionary limit (.multiTerm field which) = some error) :
    (field ≠ anchorField ∧ error = .fieldMismatch field anchorField) ∨
      (field = anchorField ∧ which.refusal? regex = some error) ∨
      (field = anchorField ∧ which.refusal? regex = none ∧
        limit < (dictionary.selected field which).length ∧
        error = .tooManyExpansions field limit) := by
  rw [offence] at h
  by_cases hfield : field = anchorField
  · rw [if_pos hfield] at h
    cases hrefusal : which.refusal? regex with
    | some first =>
      rw [hrefusal] at h
      exact .inr (.inl ⟨hfield, h⟩)
    | none =>
      rw [hrefusal] at h
      dsimp only at h
      split at h
      · cases h
      next hmany =>
        exact .inr (.inr ⟨hfield, rfl, Nat.lt_of_not_le hmany, (Option.some.inj h).symm⟩)
  · rw [if_neg hfield] at h
    exact .inl ⟨hfield, (Option.some.inj h).symm⟩

end

mutual

/-- The clause tree of an expression without phrases. Nothing is claimed of a phrase. -/
def tree : Expression → ClauseTree
  | .term field text => .term { field, text }
  | .multiTerm field which =>
    .anyOf ((dictionary.selected field which).map fun text => { field, text })
  | .phrase _ _ _ => .composite []
  | .boolean clauses => .composite (treesOfClauses clauses)
  | .boost clause factor => clause.tree.scale factor

/-- The clause trees of the clauses of a level. -/
def treesOfClauses : List (Expression × Occur) → List (ClauseTree × Occur)
  | [] => []
  | (clause, occur) :: rest => (clause.tree, occur) :: treesOfClauses rest

end

/-- The clause trees of some clauses are made one by one. -/
theorem treesOfClauses_eq_map (clauses : List (Expression × Occur)) :
    treesOfClauses dictionary clauses = clauses.map fun c => (c.1.tree dictionary, c.2) := by
  induction clauses with
  | nil => rfl
  | cons c rest ih => rw [treesOfClauses, ih, List.map_cons]

/-- Whether an expression is a construct that stands for many terms, boosted or not. -/
def isExpansion : Expression → Bool
  | .multiTerm _ _ => true
  | .boost clause _ => clause.isExpansion
  | .term _ _ | .phrase _ _ _ | .boolean _ => false

/-- The clause tree of a whole phrase: an expansion fills one position. -/
def phraseTree (e : Expression) : ClauseTree :=
  if e.isExpansion then .composite [(e.tree dictionary, .should)] else e.tree dictionary

/-- A resolving run over the clauses of a level, given that over each. -/
theorem run_buildClauses_resolve {clauses : List (Expression × Occur)}
    (h : ∀ c ∈ clauses, ∀ flag,
      (c.1.build (resolveBuilder .expand anchorField regex dictionary limit)).run flag =
        match c.1.calls.findSome? (offence regex anchorField dictionary limit) with
        | some error => .error error
        | none => .ok (c.1.tree dictionary, c.1.isExpansion))
    (flag : Bool) :
    (buildClauses (resolveBuilder .expand anchorField regex dictionary limit) clauses).run flag =
      match (callsOfClauses clauses).findSome? (offence regex anchorField dictionary limit) with
      | some error => .error error
      | none => .ok (treesOfClauses dictionary clauses,
          clauses.foldl (fun _ c => c.1.isExpansion) flag) := by
  induction clauses generalizing flag with
  | nil => rfl
  | cons c rest ih =>
    have hc := h c List.mem_cons_self flag
    have hrest := ih (fun c hmem => h c (List.mem_cons_of_mem _ hmem)) c.1.isExpansion
    simp only [buildClauses, callsOfClauses, StateT.run_bind, hc, List.findSome?_append]
    cases c.1.calls.findSome? (offence regex anchorField dictionary limit) with
    | some error => rfl
    | none =>
      simp only [ok_bind, hrest, Option.none_or]
      cases (callsOfClauses rest).findSome? (offence regex anchorField dictionary limit) with
      | some error => rfl
      | none => rfl

/-- Resolving an expression stops at the first call that offends, and otherwise gives its tree. The
state at the end says whether the expression is an expansion, through groups and boosts. -/
theorem run_build_resolve (e : Expression) (flag : Bool) :
    (e.build (resolveBuilder .expand anchorField regex dictionary limit)).run flag =
      match e.calls.findSome? (offence regex anchorField dictionary limit) with
      | some error => .error error
      | none => .ok (e.tree dictionary, e.isExpansion) := by
  induction e generalizing flag with
  | term field text =>
    by_cases hf : field = anchorField
    · simp only [build, calls, resolveBuilder, requireField, List.findSome?_singleton,
        offence, hf, if_true]
      rfl
    · simp only [build, calls, resolveBuilder, requireField, List.findSome?_singleton,
        offence, hf, if_false]
      rfl
  | multiTerm field which =>
    -- the field is looked at before the pattern, and the pattern before the dictionary
    by_cases hf : field = anchorField
    · cases hrefusal : which.refusal? regex with
      | some error =>
        simp only [build, calls, resolveBuilder, requireField, requireExpansion,
          List.findSome?_singleton, offence, Dictionary.expand_eq_of_refused hrefusal, hrefusal, hf,
          if_true]
        rfl
      | none =>
        by_cases hl : (dictionary.selected field which).length ≤ limit
        · simp only [build, calls, resolveBuilder, requireField, requireExpansion,
            List.findSome?_singleton, offence, Dictionary.expand_eq_of_accepted hrefusal, hrefusal,
            hf ▸ hl, hf, if_true]
          rfl
        · simp only [build, calls, resolveBuilder, requireField, requireExpansion,
            List.findSome?_singleton, offence, Dictionary.expand_eq_of_accepted hrefusal, hrefusal,
            hf ▸ hl, hf, if_true, if_false]
          rfl
    · simp only [build, calls, resolveBuilder, requireField, List.findSome?_singleton,
        offence, hf, if_false]
      rfl
  | phrase field raw slop =>
    by_cases hf : field = anchorField
    · simp only [build, calls, resolveBuilder, requireField, List.findSome?_singleton,
        offence, hf, if_true]
      rfl
    · simp only [build, calls, resolveBuilder, requireField, List.findSome?_singleton,
        offence, hf, if_false]
      rfl
  | boolean clauses ih =>
    simp only [build, calls, StateT.run_bind, List.findSome?_append,
      run_buildClauses_resolve regex anchorField dictionary limit ih]
    cases (callsOfClauses clauses).findSome? (offence regex anchorField dictionary limit) with
    | some error => rfl
    | none => rfl
  | boost clause factor ih =>
    simp only [build, calls, StateT.run_bind, List.findSome?_append, ih]
    cases clause.calls.findSome? (offence regex anchorField dictionary limit) with
    | some error => rfl
    | none => rfl

/-- Resolving expressions one after the other stops at the first call that offends. -/
theorem run_buildEach_resolve (es : List Expression) (flag : Bool) :
    (buildEach (resolveBuilder .expand anchorField regex dictionary limit) es).run flag =
      match (es.flatMap calls).findSome? (offence regex anchorField dictionary limit) with
      | some error => .error error
      | none => .ok ((), es.foldl (fun _ e => e.isExpansion) flag) := by
  induction es generalizing flag with
  | nil => rfl
  | cons e rest ih =>
    simp only [buildEach, StateT.run_bind, run_build_resolve, List.flatMap_cons,
      List.findSome?_append]
    cases e.calls.findSome? (offence regex anchorField dictionary limit) with
    | some error => rfl
    | none => exact ih e.isExpansion

end

end Expression

open Expression in
/-- A phrase is refused for the first call that offends, whatever the text holds after it; without
such a call it is refused for being malformed, and otherwise it is the tree of its expression. -/
theorem resolvePhrase_eq (d : Grammar.Dialect) (regex : Regex.Compiler) (dictionary : Dictionary)
    (limit : Nat) (field raw : String) :
    resolvePhrase d regex dictionary limit field raw =
      match (callsOfText d field raw).findSome? (offence regex field dictionary limit) with
      | some error => .error error
      | none =>
        match ofText? d field raw with
        | .error m => .error (.malformed m)
        | .ok e => .ok (e.phraseTree dictionary) := by
  obtain ⟨o, hresult, hcalls, hrun⟩ := exists_outcome_ofText d field raw
  rw [hresult, hcalls]
  cases o with
  | done e =>
    simp only [resolvePhrase, hrun, Outcome.run, Outcome.result, Outcome.calls, ExceptT.run_lift,
      StateT.run_map, run_build_resolve]
    cases e.calls.findSome? (offence regex field dictionary limit) with
    | some error => rfl
    | none => rfl
  | stopped completed m =>
    simp only [resolvePhrase, hrun, Outcome.run, Outcome.result, Outcome.calls,
      ExceptT.run_bind_lift, StateT.run_bind, run_buildEach_resolve]
    cases (completed.flatMap calls).findSome? (offence regex field dictionary limit) with
    | some error => rfl
    | none => rfl

open Expression in
/-- An anchor is resolved just when no call of its text offends and the text is an expression, whose
tree is then the tree of the anchor. -/
theorem Parser.treeOf_eq_ok_iff (p : Parser) (a : Anchor) (tree : ClauseTree) :
    p.treeOf a = .ok tree ↔
      (∀ c ∈ callsOfText p.config.dialect a.field a.rawText,
        c.offence p.regex a.field p.dictionary p.config.maxExpansions = none) ∧
      ∃ e, ofText? p.config.dialect a.field a.rawText = .ok e ∧
        e.phraseTree p.dictionary = tree := by
  rw [treeOf, resolvePhrase_eq, ← List.findSome?_eq_none_iff]
  cases (callsOfText p.config.dialect a.field a.rawText).findSome?
      (offence p.regex a.field p.dictionary p.config.maxExpansions) with
  | some first => simp
  | none =>
    cases ofText? p.config.dialect a.field a.rawText with
    | error m => simp
    | ok e => simp

open Expression in
/-- A refusal is the offence of the first call that offends, or else that of the malformed text. -/
theorem Parser.treeOf_eq_error_iff (p : Parser) (a : Anchor) (error : QueryError) :
    p.treeOf a = .error error ↔
      (∃ before call after,
        callsOfText p.config.dialect a.field a.rawText = before ++ call :: after ∧
        (∀ c ∈ before, c.offence p.regex a.field p.dictionary p.config.maxExpansions = none) ∧
        call.offence p.regex a.field p.dictionary p.config.maxExpansions = some error) ∨
      (∀ c ∈ callsOfText p.config.dialect a.field a.rawText,
        c.offence p.regex a.field p.dictionary p.config.maxExpansions = none) ∧
        ∃ m, ofText? p.config.dialect a.field a.rawText = .error m ∧ error = .malformed m := by
  have hfirst_iff : (callsOfText p.config.dialect a.field a.rawText).findSome?
      (offence p.regex a.field p.dictionary p.config.maxExpansions) = some error ↔
      ∃ before call after,
        callsOfText p.config.dialect a.field a.rawText = before ++ call :: after ∧
        (∀ c ∈ before, c.offence p.regex a.field p.dictionary p.config.maxExpansions = none) ∧
        call.offence p.regex a.field p.dictionary p.config.maxExpansions = some error := by
    rw [List.findSome?_eq_some_iff]
    grind
  rw [treeOf, resolvePhrase_eq, ← hfirst_iff, ← List.findSome?_eq_none_iff]
  cases (callsOfText p.config.dialect a.field a.rawText).findSome?
      (offence p.regex a.field p.dictionary p.config.maxExpansions) with
  | some first => simp
  | none =>
    cases ofText? p.config.dialect a.field a.rawText with
    | error m => simp [eq_comm]
    | ok e => simp

end ProximityQuery
