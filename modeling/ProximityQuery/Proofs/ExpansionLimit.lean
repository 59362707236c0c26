import ProximityQuery.Proofs.Influence

/-!
# The limit on expansions

A parse under a limit on the number of terms that one construct of a phrase may stand for. The limit
does nothing but refuse. Under a greater one the outcome is the same tree or the same error, unless
it was a refusal for the limit, and what is refused under the greater one was refused before. No
limit from the number of terms in the dictionary on refuses anything.
-/

namespace ProximityQuery

section

variable {α : Type}

/-- Whether an outcome is the refusal of a construct that stands for too many terms. -/
def ExceedsLimit (outcome : Except QueryError α) : Prop :=
  ∃ field limit, outcome = .error (.tooManyExpansions field limit)

/-- Whether an outcome under a limit may become another one under a greater limit: any outcome in the
place of a refusal for the limit, and otherwise only itself. -/
def MayBecome (outcome raised : Except QueryError α) : Prop :=
  ExceedsLimit outcome ∨ raised = outcome

/-- What did not exceed the limit stays as it was. -/
theorem MayBecome.eq_of_not_exceeds {outcome raised : Except QueryError α}
    (h : MayBecome outcome raised) (hwithin : ¬ ExceedsLimit outcome) : raised = outcome :=
  h.resolve_left hwithin

/-- What exceeds the greater limit exceeded the smaller one. -/
theorem MayBecome.exceeds_of_exceeds {outcome raised : Except QueryError α}
    (h : MayBecome outcome raised) (hexceeds : ExceedsLimit raised) : ExceedsLimit outcome := by
  rcases h with hfirst | rfl
  · exact hfirst
  · exact hexceeds

end

namespace Dictionary

/-- No field has more terms than the dictionary. -/
theorem length_terms_le_size (d : Dictionary) (field : String) :
    (d.terms field).length ≤ d.size := by
  rw [terms, size]
  induction d.fields with
  | nil => exact Nat.zero_le _
  | cons entry rest ih =>
    rw [List.lookup_cons, List.foldr_cons]
    split
    · exact Nat.le_add_right _ _
    · exact ih.trans (Nat.le_add_left _ _)

/-- No construct stands for more terms than the dictionary has. -/
theorem length_selected_le_size (d : Dictionary) (field : String) (which : MultiTerm) :
    (d.selected field which).length ≤ d.size :=
  (List.length_filter_le _ _).trans (d.length_terms_le_size field)

end Dictionary

namespace Expression

variable (regex : Regex.Compiler) (anchorField : String) (dictionary : Dictionary)
  {limit limit' : Nat}

/-- Under a greater limit a call offends as before, unless it stood for too many terms. -/
theorem offence_of_le (h : limit ≤ limit') (call : Expression) :
    (∃ field,
        call.offence regex anchorField dictionary limit = some (.tooManyExpansions field limit)) ∨
      call.offence regex anchorField dictionary limit' =
        call.offence regex anchorField dictionary limit := by
  cases call with
  | term field text => exact .inr rfl
  | multiTerm field which =>
    by_cases hfield : field = anchorField
    · rw [offence, offence, if_pos hfield, if_pos hfield]
      cases which.refusal? regex with
      | some error => exact .inr rfl
      | none =>
        by_cases hfew : (dictionary.selected field which).length ≤ limit
        · have hfew' : (dictionary.selected field which).length ≤ limit' := hfew.trans h
          refine .inr ?_
          dsimp only
          rw [if_pos hfew, if_pos hfew']
        · refine .inl ⟨field, ?_⟩
          dsimp only
          rw [if_neg hfew]
    · refine .inr ?_
      rw [offence, offence, if_neg hfield, if_neg hfield]
  | phrase field raw slop => exact .inr rfl
  | boolean clauses => exact .inr rfl
  | boost clause factor => exact .inr rfl

/-- The same of the first call that offends: a call before it does not begin to offend. -/
theorem findSome?_offence_of_le (h : limit ≤ limit') (calls : List Expression) :
    (∃ field, calls.findSome? (offence regex anchorField dictionary limit) =
        some (.tooManyExpansions field limit)) ∨
      calls.findSome? (offence regex anchorField dictionary limit') =
        calls.findSome? (offence regex anchorField dictionary limit) := by
  induction calls with
  | nil => exact .inr rfl
  | cons call rest ih =>
    rw [List.findSome?_cons, List.findSome?_cons]
    rcases offence_of_le regex anchorField dictionary h call with
      ⟨field, hexceeds⟩ | hsame
    · refine .inl ⟨field, ?_⟩
      rw [hexceeds]
    · rw [hsame]
      cases call.offence regex anchorField dictionary limit with
      | some error => exact .inr rfl
      | none => exact ih

/-- Under a limit of the number of terms in the dictionary no call stands for too many. -/
theorem offence_ne_of_size_le {dictionary : Dictionary} (h : dictionary.size ≤ limit)
    (call : Expression) (field : String) (n : Nat) :
    call.offence regex anchorField dictionary limit ≠ some (.tooManyExpansions field n) := by
  intro hoffence
  cases call with
  | term g text =>
    rw [offence] at hoffence
    split at hoffence <;> cases hoffence
  | multiTerm g which =>
    have hfew : (dictionary.selected g which).length ≤ limit :=
      (dictionary.length_selected_le_size g which).trans h
    rcases offence_multiTerm_eq_some hoffence with ⟨-, hkind⟩ | ⟨-, hrefusal⟩ | ⟨-, -, hmany, -⟩
    · cases hkind
    · obtain ⟨_, _, -, -, hkind⟩ := MultiTerm.refusal?_eq_some_iff.mp hrefusal
      cases hkind
    · exact Nat.not_le_of_lt hmany hfew
  | phrase g raw slop =>
    rw [offence] at hoffence
    split at hoffence <;> cases hoffence
  | boolean clauses => cases hoffence
  | boost clause factor => cases hoffence

end Expression

/-- What becomes of a phrase under a greater limit. -/
theorem resolvePhrase_of_le {limit limit' : Nat} (h : limit ≤ limit') (dialect : Grammar.Dialect)
    (regex : Regex.Compiler) (dictionary : Dictionary) (field raw : String) :
    MayBecome (resolvePhrase dialect regex dictionary limit field raw)
      (resolvePhrase dialect regex dictionary limit' field raw) := by
  rw [resolvePhrase_eq, resolvePhrase_eq]
  rcases Expression.findSome?_offence_of_le regex field dictionary h
    (Expression.callsOfText dialect field raw) with ⟨g, hexceeds⟩ | hsame
  · refine .inl ⟨g, limit, ?_⟩
    rw [hexceeds]
  · refine .inr ?_
    rw [hsame]

/-- A run of resolution goes as before, queue and outcome, unless an anchor in it was refused for the
limit. -/
theorem Anchor.resolveAll_of_mayBecome {tree? tree?' : Anchor → Except QueryError ClauseTree}
    (h : ∀ a, MayBecome (tree? a) (tree?' a)) (anchors : List Anchor) :
    ExceedsLimit (resolveAll tree? anchors).1 ∨
      resolveAll tree?' anchors = resolveAll tree? anchors := by
  induction anchors with
  | nil => exact .inr rfl
  | cons a rest ih =>
    rw [resolveAll, resolveAll]
    cases a.resolved with
    | some tree =>
      rcases ih with hexceeds | hsame
      · exact .inl hexceeds
      · refine .inr ?_
        rw [hsame]
    | none =>
      rcases h a with ⟨field, limit, hexceeds⟩ | hsame
      · refine .inl ⟨field, limit, ?_⟩
        rw [hexceeds]
      · rw [hsame]
        cases tree? a with
        | error error => exact .inr rfl
        | ok tree =>
          rcases ih with ⟨field, limit, hexceeds⟩ | hrest
          · refine .inl ⟨field, limit, ?_⟩
            dsimp only
            rw [hexceeds]
            rfl
          · refine .inr ?_
            rw [hrest]

namespace Parser

variable {p : Parser}

/-- The parser with another limit on expansions. -/
def allowing (p : Parser) (limit : Nat) : Parser :=
  { p with config := { p.config with maxExpansions := limit } }

/-- The limit does not enter into the first reading. -/
theorem capture_allowing (limit : Nat) (text : String) :
    (p.allowing limit).capture text = p.capture text :=
  rfl

/-- What becomes of an anchor under a greater limit. -/
theorem treeOf_allowing_of_le {limit limit' : Nat} (h : limit ≤ limit') (a : Anchor) :
    MayBecome ((p.allowing limit).treeOf a) ((p.allowing limit').treeOf a) :=
  resolvePhrase_of_le h _ _ _ _ _

/-- The limit does not enter into substitution. -/
theorem substitute_allowing (limit : Nat) (anchors : AnchorQueue) (query : Query) :
    (p.allowing limit).substitute anchors query = p.substitute anchors query := by
  have hfactory : (p.allowing limit).factory = p.factory := rfl
  exact substitute_congr hfactory anchors query

/-- What becomes of a parse under a greater limit. -/
theorem parse_allowing_of_le {limit limit' : Nat} (h : limit ≤ limit') (text : String) :
    MayBecome ((p.allowing limit).parse text) ((p.allowing limit').parse text) := by
  rw [parse, parse, capture_allowing, capture_allowing]
  cases p.capture text with
  | error error =>
    rw [error_bind, error_bind]
    exact .inr rfl
  | ok captured =>
    obtain ⟨query, anchors⟩ := captured
    have hresolve := Anchor.resolveAll_of_mayBecome
      (treeOf_allowing_of_le (p := p) h) anchors.toList
    simp only [ok_bind, resolve, substitute_allowing]
    rcases hresolve with ⟨field, n, hexceeds⟩ | hsame
    · refine .inl ⟨field, n, ?_⟩
      rw [hexceeds]
    · refine .inr ?_
      rw [hsame]

/-- The limit on a parse is exceeded by one of the captured phrases. -/
theorem exists_exceeds_of_parse {text : String} (h : ExceedsLimit (p.parse text)) :
    ∃ query anchors, p.capture text = .ok (query, anchors) ∧
      ∃ a ∈ anchors.toList, ExceedsLimit (p.treeOf a) := by
  obtain ⟨field, limit, herror⟩ := h
  rw [parse] at herror
  cases hcapture : p.capture text with
  | error first =>
    rw [hcapture] at herror
    obtain rfl := Except.error.inj herror
    rw [capture, capture_eq] at hcapture
    split at hcapture <;> cases hcapture
  | ok captured =>
    obtain ⟨query, anchors⟩ := captured
    rw [hcapture, ok_bind] at herror
    dsimp only at herror
    split at herror
    next first resolved hresolve =>
      obtain rfl := Except.error.inj herror
      obtain ⟨a, ha, htree⟩ := exists_of_resolve_error hresolve
      exact ⟨query, anchors, rfl, a, ha, field, limit, htree⟩
    next n resolved hresolve =>
      -- what substitution reports is a placeholder
      obtain ⟨before, id, after, what, -, -, -, hkind⟩ := substitute_eq_error_iff.mp herror
      cases hkind

/-- A limit of the number of terms in the dictionary is exceeded by no phrase. -/
theorem not_exceeds_treeOf_of_size_le {limit : Nat} (h : p.dictionary.size ≤ limit) (a : Anchor) :
    ¬ ExceedsLimit ((p.allowing limit).treeOf a) := by
  rintro ⟨field, n, herror⟩
  rcases (treeOf_eq_error_iff _ a _).mp herror with
    ⟨before, call, after, -, -, hoffence⟩ | ⟨-, m, -, hkind⟩
  · exact Expression.offence_ne_of_size_le _ _ h call field n hoffence
  · cases hkind

end Parser

/-- Under two limits, the smaller first, a text has the same outcome, tree or error, unless the first
limit is exceeded; and what exceeds the second limit exceeds the first. A limit of the number of terms
in the dictionary is never exceeded. -/
theorem parse_under_greater_limit (p : Parser) (text : String) :
    (∀ limit limit', limit ≤ limit' →
      (¬ ExceedsLimit ((p.allowing limit).parse text) →
        (p.allowing limit').parse text = (p.allowing limit).parse text) ∧
      (ExceedsLimit ((p.allowing limit').parse text) →
        ExceedsLimit ((p.allowing limit).parse text))) ∧
    ∀ limit, p.dictionary.size ≤ limit → ¬ ExceedsLimit ((p.allowing limit).parse text) := by
  refine ⟨fun limit limit' h => ?_, fun limit h hexceeds => ?_⟩
  · have hmay := Parser.parse_allowing_of_le (p := p) h text
    exact ⟨hmay.eq_of_not_exceeds, hmay.exceeds_of_exceeds⟩
  · obtain ⟨query, anchors, -, a, -, htree⟩ := Parser.exists_exceeds_of_parse hexceeds
    exact Parser.not_exceeds_treeOf_of_size_le h a htree

/-- A phrase with a pattern for two terms and a word of another field: a limit of one is exceeded, and
so is a limit of none, while under a limit of two, as under any greater one, the field is to blame. -/
theorem parse_under_greater_limit_of_pattern :
    let p : Parser := { dictionary := .ofTerms "body" ["fred", "freddy"] }
    let text := "\"fr* title:smith\""
    ExceedsLimit ((p.allowing 1).parse text) ∧ ExceedsLimit ((p.allowing 0).parse text) ∧
      (p.allowing 2).parse text = .error (.fieldMismatch "title" "body") ∧
      (p.allowing 1024).parse text = .error (.fieldMismatch "title" "body") := by
  intro p text
  have hone : (p.allowing 1).parse text = .error (.tooManyExpansions "body" 1) := by
    cbv
  have htwo : (p.allowing 2).parse text = .error (.fieldMismatch "title" "body") := by
    cbv
  have hexceeds : ExceedsLimit ((p.allowing 1).parse text) := ⟨"body", 1, hone⟩
  have hwithin : ¬ ExceedsLimit ((p.allowing 2).parse text) :=
    (parse_under_greater_limit p text).2 2 (by decide +kernel)
  obtain ⟨-, hbelow⟩ := (parse_under_greater_limit p text).1 0 1 (by decide)
  obtain ⟨habove, -⟩ := (parse_under_greater_limit p text).1 2 1024 (by decide)
  exact ⟨hexceeds, hbelow hexceeds, htwo, (habove hwithin).trans htwo⟩

end ProximityQuery
