import Mathlib
import ProximityQuery.Proofs.Placeholders

/-!
# What a parse depends on

The outcome of a parse is decided by what the first reading captures, by the trees of the captured
phrases and by the factory of words. The dictionary has a say in the trees alone, and in the tree of
a phrase only through the terms of its field: a clause is refused for its field, and a pattern for
its expression, before any terms are looked up. So nothing outside the phrases depends on the
dictionary.
-/

namespace ProximityQuery

/-- Nothing follows an error. -/
theorem error_bind {ε β γ : Type} (error : ε) (next : β → Except ε γ) :
    ((Except.error error : Except ε β) >>= next) = .error error := rfl

namespace Dictionary

variable {d e : Dictionary} {field : String}

/-- Whether two dictionaries hold the same terms for a field. -/
def AgreesOn (d e : Dictionary) (field : String) : Prop :=
  ∀ t, t ∈ d.terms field ↔ t ∈ e.terms field

/-- The terms of a field are listed in ascending order. -/
theorem ascending_terms (d : Dictionary) (field : String) :
    (d.terms field).Pairwise (· < ·) := by
  rw [terms]
  cases d.fields.lookup field with
  | none => exact .nil
  | some known => exact known.ascending

/-- The terms of a field are listed in one order, so the same terms are the same list. -/
theorem AgreesOn.terms_eq (h : d.AgreesOn e field) : d.terms field = e.terms field := by
  have hd := d.ascending_terms field
  have he := e.ascending_terms field
  have hperm : (d.terms field).Perm (e.terms field) :=
    (List.perm_ext_iff_of_nodup hd.nodup he.nodup).mpr h
  exact hperm.eq_of_pairwise (fun a b _ _ hab hba => absurd (hab.trans hba) (lt_irrefl a)) hd he

/-- A construct stands for the same terms of a field in both. -/
theorem AgreesOn.selected_eq (h : d.AgreesOn e field) (which : MultiTerm) :
    d.selected field which = e.selected field which := by
  rw [selected, selected, h.terms_eq]

end Dictionary

namespace Expression

variable {d e : Dictionary} {regex : Regex.Compiler} {anchorField : String}
  (h : d.AgreesOn e anchorField)

include h

/-- Which call of a phrase offends depends on the terms of the field of the phrase. -/
theorem offence_congr (limit : Nat) (call : Expression) :
    call.offence regex anchorField d limit = call.offence regex anchorField e limit := by
  cases call with
  | term field text => rfl
  | multiTerm field which =>
    by_cases hfield : field = anchorField
    · subst hfield
      rw [offence, offence, h.selected_eq]
    · rw [offence, offence, if_neg hfield, if_neg hfield]
  | phrase field raw slop => rfl
  | boolean clauses => rfl
  | boost clause factor => rfl

/-- So does the tree of an expression in which no call offends. -/
theorem tree_congr {limit : Nat} (clause : Expression)
    (hnone : ∀ call ∈ clause.calls, call.offence regex anchorField d limit = none) :
    clause.tree d = clause.tree e := by
  induction clause with
  | term field text => rfl
  | multiTerm field which =>
    -- a construct of another field would have offended
    have hself := hnone _ (List.mem_singleton.mpr rfl)
    obtain ⟨rfl, -, -⟩ := offence_multiTerm_eq_none_iff.mp hself
    rw [tree, tree, h.selected_eq]
  | phrase field raw slop => rfl
  | boolean clauses ih =>
    have hclauses : ∀ c ∈ clauses, c.1.tree d = c.1.tree e := by
      intro c hc
      refine ih c hc fun call hcall => hnone call ?_
      rw [calls, callsOfClauses_eq_flatMap]
      exact List.mem_append_left _ (List.mem_flatMap.mpr ⟨c, hc, hcall⟩)
    rw [tree, tree, treesOfClauses_eq_map, treesOfClauses_eq_map]
    exact congrArg ClauseTree.composite
      (List.map_congr_left fun c hc => by rw [hclauses c hc])
  | boost clause factor ih =>
    rw [tree, tree, ih fun call hcall => hnone call (List.mem_append_left _ hcall)]

/-- And so does the tree of a whole phrase. -/
theorem phraseTree_congr {limit : Nat} (clause : Expression)
    (hnone : ∀ call ∈ clause.calls, call.offence regex anchorField d limit = none) :
    clause.phraseTree d = clause.phraseTree e := by
  rw [phraseTree, phraseTree, tree_congr h clause hnone]

end Expression

open Expression in
/-- What becomes of a phrase depends on the terms of its field, also when it is refused. -/
theorem resolvePhrase_congr {d e : Dictionary} {field : String} (h : d.AgreesOn e field)
    (dialect : Grammar.Dialect) (regex : Regex.Compiler) (limit : Nat) (raw : String) :
    resolvePhrase dialect regex d limit field raw =
      resolvePhrase dialect regex e limit field raw := by
  have hoffence : offence regex field d limit = offence regex field e limit :=
    funext fun call => offence_congr h limit call
  rw [resolvePhrase_eq, resolvePhrase_eq, hoffence]
  cases hfirst : (callsOfText dialect field raw).findSome? (offence regex field e limit) with
  | some error => rfl
  | none =>
    cases hclause : ofText? dialect field raw with
    | error m => rfl
    | ok clause =>
      rw [callsOfText_eq_calls hclause, ← hoffence, List.findSome?_eq_none_iff] at hfirst
      dsimp only
      rw [phraseTree_congr h clause hfirst]

/-- A run of resolution depends on the trees of its anchors. -/
theorem Anchor.resolveAll_congr {ε : Type} {tree? tree?' : Anchor → Except ε ClauseTree}
    {anchors : List Anchor} (h : ∀ a ∈ anchors, tree? a = tree?' a) :
    resolveAll tree? anchors = resolveAll tree?' anchors := by
  induction anchors with
  | nil => rfl
  | cons a rest ih =>
    have ha := h a List.mem_cons_self
    have hrest := ih fun b hb => h b (List.mem_cons_of_mem _ hb)
    rw [resolveAll, resolveAll, ha, hrest]

/-- Putting every placeholder back changes nothing. -/
theorem Query.replace_phrase (query : Query) : query.replace .phrase = query := by
  induction query with
  | term t => rfl
  | multiTerm field which boost => rfl
  | positional clause => rfl
  | phrase id => rfl
  | boosted query boost ih => rw [replace, ih]
  | boolean children ih =>
    have hchildren : ∀ c ∈ children, (c.1.replace .phrase, c.2) = c :=
      fun c hc => by rw [ih c hc]
    rw [replace, replaceAll_eq_map, List.map_congr_left hchildren, List.map_id']

namespace Parser

variable {p p' : Parser}

/-- Substitution in children depends on the parser as that in each child does. -/
theorem substituteAll_congr {anchors : AnchorQueue} {children : List (Query × Occur)}
    (h : ∀ c ∈ children, p.substitute anchors c.1 = p'.substitute anchors c.1) :
    p.substituteAll anchors children = p'.substituteAll anchors children := by
  induction children with
  | nil => rfl
  | cons c rest ih =>
    have hc := h c List.mem_cons_self
    have hrest := ih fun c hmem => h c (List.mem_cons_of_mem _ hmem)
    rw [substituteAll, substituteAll, hc, hrest]

/-- Of the parser, substitution depends on the factory of words alone. -/
theorem substitute_congr (hfactory : p.factory = p'.factory) (anchors : AnchorQueue)
    (query : Query) : p.substitute anchors query = p'.substitute anchors query := by
  induction query with
  | term t => rfl
  | multiTerm field which boost => rfl
  | positional clause => rfl
  | phrase id => rw [substitute, substitute, phraseQuery, phraseQuery, hfactory]
  | boosted query boost ih => rw [substitute, substitute, ih]
  | boolean children ih => rw [substitute, substitute, substituteAll_congr ih]

/-- A parse is decided by what is captured, by the trees of the captured phrases and by the factory
of words. -/
theorem parse_congr {text text' : String} (hcapture : p.capture text = p'.capture text')
    (hfactory : p.factory = p'.factory)
    (htree : ∀ query anchors, p.capture text = .ok (query, anchors) →
      ∀ a ∈ anchors.toList, p.treeOf a = p'.treeOf a) :
    p.parse text = p'.parse text' := by
  rw [parse, parse, ← hcapture]
  cases hcaptured : p.capture text with
  | error error => rw [error_bind, error_bind]
  | ok captured =>
    obtain ⟨query, anchors⟩ := captured
    have hresolve : p.resolve anchors = p'.resolve anchors := by
      rw [resolve, resolve, Anchor.resolveAll_congr (htree query anchors hcaptured)]
    rw [ok_bind, ok_bind]
    dsimp only
    rw [hresolve]
    split
    · rfl
    · exact substitute_congr hfactory _ _

/-- The parser with another dictionary. -/
def knowing (p : Parser) (d : Dictionary) : Parser :=
  { p with dictionary := d }

/-- Dictionaries that agree on the fields of the captured phrases lead to the same outcome. -/
theorem parse_knowing_congr {text : String} {d e : Dictionary}
    (h : ∀ query anchors, p.capture text = .ok (query, anchors) →
      ∀ a ∈ anchors.toList, d.AgreesOn e a.field) :
    (p.knowing d).parse text = (p.knowing e).parse text := by
  refine parse_congr rfl rfl fun query anchors hcapture a ha => ?_
  exact resolvePhrase_congr (h query anchors hcapture a ha) _ _ _ _

/-- A captured query without phrases is the outcome of the parse. -/
theorem parse_eq_of_no_anchors {text : String} {query : Query}
    (h : p.capture text = .ok (query, {})) : p.parse text = .ok query := by
  have hnone : query.placeholders = [] := by
    obtain ⟨clause, -, rfl, hanchors⟩ := capture_eq_ok_iff.mp h
    rw [clause.placeholders_query_eq_range p.config.inOrder, ← hanchors]
    rfl
  have hreplace : p.substitute {} query = .ok (query.replace .phrase) := by
    refine substitute_eq_ok fun id hid => ?_
    rw [hnone] at hid
    cases hid
  have hsubstitute : p.substitute {} query = .ok query := by
    rwa [Query.replace_phrase] at hreplace
  rw [parse, h]
  exact hsubstitute

/-- Two results of the same query differ in the phrases whose fields the dictionaries differ on, and
nowhere else. -/
theorem exists_replace_knowing {text : String} {query : Query} {anchors : AnchorQueue}
    (hcapture : p.capture text = .ok (query, anchors)) {d e : Dictionary} {result result' : Query}
    (hd : (p.knowing d).parse text = .ok result) (he : (p.knowing e).parse text = .ok result') :
    ∃ put put' : Nat → Query, result = query.replace put ∧ result' = query.replace put' ∧
      ∀ id a, anchors.get? id = some a → d.AgreesOn e a.field → put id = put' id := by
  obtain ⟨put, hput, hresult, -⟩ := exists_replace_of_parse (p := p.knowing d) hcapture hd
  obtain ⟨put', hput', hresult', -⟩ := exists_replace_of_parse (p := p.knowing e) hcapture he
  refine ⟨put, put', hresult, hresult', fun id a ha hagree => ?_⟩
  obtain ⟨tree, htree, hquery⟩ := hput id a ha
  obtain ⟨tree', htree', hquery'⟩ := hput' id a ha
  have hsame : (p.knowing d).treeOf a = (p.knowing e).treeOf a :=
    resolvePhrase_congr hagree _ _ _ _
  rw [htree, htree'] at hsame
  obtain rfl := Except.ok.inj hsame
  rw [hquery, hquery']
  rfl

end Parser

/-- Two dictionaries that hold the same terms for the field of every captured phrase lead to the
same outcome, tree or error. A text without phrases is parsed as it is captured, whatever the
dictionary. In general two results of a text under two dictionaries are its captured query with the
phrases replaced, and a phrase is replaced alike where the dictionaries agree on its field. -/
theorem parse_reads_fields_of_phrases (p : Parser) (text : String) :
    (∀ d e : Dictionary,
      (∀ query anchors, p.capture text = .ok (query, anchors) →
        ∀ a ∈ anchors.toList, d.AgreesOn e a.field) →
      (p.knowing d).parse text = (p.knowing e).parse text) ∧
    (∀ query, p.capture text = .ok (query, {}) →
      ∀ d, (p.knowing d).parse text = .ok query) ∧
    ∀ query anchors, p.capture text = .ok (query, anchors) →
      ∀ (d e : Dictionary) (result result' : Query),
        (p.knowing d).parse text = .ok result → (p.knowing e).parse text = .ok result' →
        ∃ put put' : Nat → Query, result = query.replace put ∧ result' = query.replace put' ∧
          ∀ id a, anchors.get? id = some a → d.AgreesOn e a.field → put id = put' id := by
  refine ⟨fun d e h => ?_, fun query hcapture d => ?_,
    fun query anchors hcapture d e result result' hd he => ?_⟩
  · exact Parser.parse_knowing_congr h
  · exact Parser.parse_eq_of_no_anchors hcapture
  · exact Parser.exists_replace_knowing hcapture hd he

open Dictionary in
/-- The terms of `title` do not matter to a phrase about `body` and a pattern about `title`, nor to
the pattern alone, and to the first of two phrases they do not matter either. -/
theorem parse_reads_fields_of_phrases_in_body :
    let d := (ofTerms "body" ["john"]).insert "title" "smith"
    let e := (ofTerms "body" ["john"]).insert "title" "smyth"
    (Parser.knowing {} d).parse "\"jo*\" title:sm*" =
      (Parser.knowing {} e).parse "\"jo*\" title:sm*" ∧
    (Parser.knowing {} d).parse "title:sm*" = .ok (.multiTerm "title" (.wildcard "sm*") 1) ∧
    ∃ put put' : Nat → Query,
      (Parser.knowing {} d).parse "\"jo*\" title:\"sm*\"" =
        .ok (.boolean [(put 0, .should), (put 1, .should)]) ∧
      (Parser.knowing {} e).parse "\"jo*\" title:\"sm*\"" =
        .ok (.boolean [(put' 0, .should), (put' 1, .should)]) ∧ put 0 = put' 0 := by
  intro d e
  have hagree : d.AgreesOn e "body" := by
    have hd : d.terms "body" = ["john"] := by cbv
    have he : e.terms "body" = ["john"] := by cbv
    intro t
    rw [hd, he]
  obtain ⟨hsame, -, -⟩ := parse_reads_fields_of_phrases {} "\"jo*\" title:sm*"
  obtain ⟨-, hnone, -⟩ := parse_reads_fields_of_phrases {} "title:sm*"
  obtain ⟨-, -, hreplace⟩ := parse_reads_fields_of_phrases {} "\"jo*\" title:\"sm*\""
  refine ⟨hsame d e fun query anchors h a ha => ?_, hnone _ (by cbv) d, ?_⟩
  · have hcapture : ({} : Parser).capture "\"jo*\" title:sm*" = .ok (.boolean
        [(.phrase 0, .should), (.multiTerm "title" (.wildcard "sm*") 1, .should)],
        ⟨[{ field := "body", rawText := "jo*", slop := 0, inOrder := true }]⟩) := by
      cbv
    rw [hcapture] at h
    obtain ⟨-, rfl⟩ := Prod.mk.inj (Except.ok.inj h)
    obtain rfl := List.mem_singleton.mp ha
    exact hagree
  · have hcapture : ({} : Parser).capture "\"jo*\" title:\"sm*\"" = .ok (.boolean
        [(.phrase 0, .should), (.phrase 1, .should)],
        ⟨[{ field := "body", rawText := "jo*", slop := 0, inOrder := true },
          { field := "title", rawText := "sm*", slop := 0, inOrder := true }]⟩) := by
      cbv
    have hd : (Parser.knowing {} d).parse "\"jo*\" title:\"sm*\"" = .ok (.boolean
        [(.positional (.near [.term ⟨"body", "john", (Float32.toFloat 1).toFloat32⟩] 0 true),
            .should),
          (.positional (.near [.term ⟨"title", "smith", (Float32.toFloat 1).toFloat32⟩] 0 true),
            .should)]) := by
      cbv
    have he : (Parser.knowing {} e).parse "\"jo*\" title:\"sm*\"" = .ok (.boolean
        [(.positional (.near [.term ⟨"body", "john", (Float32.toFloat 1).toFloat32⟩] 0 true),
            .should),
          (.positional (.near [.term ⟨"title", "smyth", (Float32.toFloat 1).toFloat32⟩] 0 true),
            .should)]) := by
      cbv
    obtain ⟨put, put', hput, hput', hfirst⟩ := hreplace _ _ hcapture d e _ _ hd he
    exact ⟨put, put', hd.trans (congrArg _ hput), he.trans (congrArg _ hput'),
      hfirst 0 _ rfl hagree⟩

end ProximityQuery
