import Mathlib
import ProximityQuery.Proofs.ParseErrors
import ProximityQuery.Proofs.Quotation

/-!
# Placeholders from capture to substitution

The placeholders of a captured query are the numbers of its anchors, each once and in their order.
Parsing replaces each of them by the positional query of its phrase and leaves the rest of the query
as it is. On any tree and any queue, substitution fails for the leftmost placeholder that has no
resolved anchor, and for nothing else.
-/

namespace ProximityQuery

namespace Query

/-- The placeholders of the children of a query are replaced child by child. -/
theorem replaceAll_eq_map (put : Nat → Query) (children : List (Query × Occur)) :
    replaceAll put children = children.map fun c => (c.1.replace put, c.2) := by
  induction children with
  | nil => rfl
  | cons c rest ih => rw [replaceAll, ih, List.map_cons]

/-- Replacing leaves no placeholder when nothing that is put in has one. -/
theorem hasPlaceholders_replace {put : Nat → Query} {query : Query}
    (h : ∀ id ∈ query.placeholders, (put id).hasPlaceholders = false) :
    (query.replace put).hasPlaceholders = false := by
  induction query with
  | term t => rfl
  | multiTerm field which boost => rfl
  | positional clause => rfl
  | phrase id => exact h id (List.mem_singleton.mpr rfl)
  | boosted query boost ih => exact ih h
  | boolean children ih =>
    rw [placeholders_boolean] at h
    rw [replace, hasPlaceholders, anyHasPlaceholders_eq_any, replaceAll_eq_map, List.any_map,
      List.any_eq_false]
    intro c hc
    have hchild := ih c hc fun id hid => h id (List.mem_flatMap.mpr ⟨c, hc, hid⟩)
    simp [hchild]

end Query

/-- The query of a phrase has no placeholder. -/
theorem Rewriter.hasPlaceholders_rewrite (r : Rewriter) (tree : ClauseTree) :
    (r.rewrite tree).hasPlaceholders = false := by
  cases tree <;> rfl

/-- What keeps the placeholder with a number from being replaced, if anything does: there is no such
anchor, or it has no tree yet. -/
def AnchorQueue.defect? (anchors : AnchorQueue) (id : Nat) : Option Unsupported :=
  match anchors.get? id with
  | none => some (.unknownPhrase id)
  | some a => if a.resolved.isNone then some (.unresolvedPhrase id) else none

namespace Parser

variable {p : Parser} {anchors : AnchorQueue}

/-- The rewriter of a phrase. -/
def rewriterOf (p : Parser) (a : Anchor) : Rewriter where
  field := a.field
  slop := a.slop
  inOrder := a.inOrder
  factory := p.factory

/-- A resolved anchor is replaced by the query of its tree. -/
theorem phraseQuery_of_resolved {id : Nat} {a : Anchor} {tree : ClauseTree}
    (ha : anchors.get? id = some a) (htree : a.resolved = some tree) :
    p.phraseQuery anchors id = .ok ((p.rewriterOf a).rewrite tree) := by
  rw [phraseQuery, ha]
  dsimp only
  rw [htree]
  rfl

/-- A placeholder with a defect is refused for it. -/
theorem phraseQuery_of_defect {id : Nat} {what : Unsupported}
    (h : anchors.defect? id = some what) :
    p.phraseQuery anchors id = .error (.unsupportedClause what) := by
  rw [AnchorQueue.defect?] at h
  rw [phraseQuery]
  cases hget : anchors.get? id with
  | none =>
    rw [hget] at h
    injection h with h
    rw [h]
  | some a =>
    rw [hget] at h
    cases hresolved : a.resolved with
    | none =>
      simp only [hresolved, Option.isNone_none, if_true, Option.some.injEq] at h
      simp only [hresolved, h]
    | some tree => simp [hresolved] at h

/-- A placeholder without a defect is replaced. -/
theorem exists_phraseQuery_of_not_defect {id : Nat} (h : anchors.defect? id = none) :
    ∃ result, p.phraseQuery anchors id = .ok result := by
  rw [AnchorQueue.defect?] at h
  split at h
  · cases h
  next a ha =>
    cases hresolved : a.resolved with
    | none => simp [hresolved] at h
    | some tree => exact ⟨_, phraseQuery_of_resolved ha hresolved⟩

/-- Without a defect among its placeholders, a query is replaced. -/
theorem exists_substitute_of_no_defect {query : Query}
    (h : query.placeholders.findSome? anchors.defect? = none) :
    ∃ result, p.substitute anchors query = .ok result := by
  rw [List.findSome?_eq_none_iff] at h
  have hnonempty : Nonempty Query := ⟨query⟩
  choose! put hput using fun id (hid : id ∈ query.placeholders) =>
    exists_phraseQuery_of_not_defect (p := p) (h id hid)
  exact ⟨query.replace put, substitute_eq_ok hput⟩

/-- Among children the first placeholder with a defect is reported, if each child
reports its own. -/
theorem substituteAll_eq_error {children : List (Query × Occur)} {what : Unsupported}
    (h : ∀ c ∈ children, c.1.placeholders.findSome? anchors.defect? = some what →
      p.substitute anchors c.1 = .error (.unsupportedClause what))
    (hwhat : (children.flatMap fun c => c.1.placeholders).findSome? anchors.defect? = some what) :
    p.substituteAll anchors children = .error (.unsupportedClause what) := by
  induction children with
  | nil => cases hwhat
  | cons c rest ih =>
    rw [List.flatMap_cons, List.findSome?_append] at hwhat
    rw [substituteAll]
    cases hc : c.1.placeholders.findSome? anchors.defect? with
    | some first =>
      rw [hc] at hwhat
      injection hwhat with hwhat
      rw [h c List.mem_cons_self (hwhat ▸ hc)]
      rfl
    | none =>
      -- the first child is replaced, so the defect is in one of the others
      rw [hc] at hwhat
      obtain ⟨result, hresult⟩ := exists_substitute_of_no_defect (p := p) hc
      rw [hresult, ih (fun c hmem => h c (List.mem_cons_of_mem _ hmem)) hwhat]
      rfl

/-- A placeholder has a defect when there is no such anchor or the anchor has no tree. -/
theorem defect?_ne_none_iff {id : Nat} :
    anchors.defect? id ≠ none ↔
      anchors.get? id = none ∨ ∃ a, anchors.get? id = some a ∧ a.resolved = none := by
  rw [AnchorQueue.defect?]
  cases anchors.get? id with
  | none => simp
  | some a => cases hresolved : a.resolved <;> simp [hresolved]

/-- A query is refused for the defect of the leftmost placeholder that has one. -/
theorem substitute_eq_error {query : Query} {what : Unsupported}
    (h : query.placeholders.findSome? anchors.defect? = some what) :
    p.substitute anchors query = .error (.unsupportedClause what) := by
  induction query with
  | term t => cases h
  | multiTerm field which boost => cases h
  | positional clause => cases h
  | phrase id =>
    have hid : [id].findSome? anchors.defect? = some what := h
    rw [List.findSome?_singleton] at hid
    exact phraseQuery_of_defect hid
  | boosted query boost ih =>
    rw [substitute, ih h]
    rfl
  | boolean children ih =>
    rw [Query.placeholders_boolean] at h
    rw [substitute, substituteAll_eq_error ih h]
    rfl

/-- Substitution fails just for the leftmost placeholder with a defect. -/
theorem substitute_eq_error_iff {query : Query} {error : QueryError} :
    p.substitute anchors query = .error error ↔
      ∃ before id after what, query.placeholders = before ++ id :: after ∧
        (∀ other ∈ before, anchors.defect? other = none) ∧
        anchors.defect? id = some what ∧ error = .unsupportedClause what := by
  constructor
  · intro h
    cases hfirst : query.placeholders.findSome? anchors.defect? with
    | none =>
      obtain ⟨result, hresult⟩ := exists_substitute_of_no_defect (p := p) hfirst
      rw [hresult] at h
      cases h
    | some what =>
      obtain ⟨before, id, after, hsplit, hwhat, hbefore⟩ := List.findSome?_eq_some_iff.mp hfirst
      rw [substitute_eq_error hfirst] at h
      injection h with h
      exact ⟨before, id, after, what, hsplit, hbefore, hwhat, h.symm⟩
  · rintro ⟨before, id, after, what, hsplit, hbefore, hwhat, rfl⟩
    exact substitute_eq_error
      (List.findSome?_eq_some_iff.mpr ⟨before, id, after, hsplit, hwhat, hbefore⟩)

/-- Substitution fails just when some placeholder has no anchor or an unresolved one. -/
theorem exists_substitute_error_iff {query : Query} :
    (∃ error, p.substitute anchors query = .error error) ↔
      ∃ id ∈ query.placeholders, anchors.get? id = none ∨
        ∃ a, anchors.get? id = some a ∧ a.resolved = none := by
  simp only [← defect?_ne_none_iff]
  constructor
  · rintro ⟨error, herror⟩
    obtain ⟨before, id, after, what, hsplit, -, hwhat, -⟩ := substitute_eq_error_iff.mp herror
    exact ⟨id, by simp [hsplit], by simp [hwhat]⟩
  · rintro ⟨id, hid, hdefect⟩
    cases hfirst : query.placeholders.findSome? anchors.defect? with
    | none => exact absurd (List.findSome?_eq_none_iff.mp hfirst id hid) hdefect
    | some what => exact ⟨_, substitute_eq_error hfirst⟩

/-- What a successful parse has gone through. -/
theorem exists_stages_of_parse {text : String} {result : Query} (h : p.parse text = .ok result) :
    ∃ query captured n resolved, p.capture text = .ok (query, captured) ∧
      p.resolve captured = (.ok n, resolved) ∧ p.substitute resolved query = .ok result := by
  obtain ⟨⟨query, captured⟩, hcapture, h⟩ := exists_ok_of_bind_eq_ok h
  dsimp only at h
  split at h
  · cases h
  next n resolved hresolve => exact ⟨query, captured, n, resolved, hcapture, hresolve, h⟩

/-- A resolved queue has for each unresolved anchor the query of its tree. -/
theorem exists_phraseQuery_of_get? {resolved : AnchorQueue} {n id : Nat} {a : Anchor}
    (hresolve : p.resolve anchors = (.ok n, resolved)) (ha : anchors.get? id = some a)
    (hfresh : a.resolved = none) :
    ∃ tree, p.treeOf a = .ok tree ∧
      p.phraseQuery resolved id = .ok ((p.rewriterOf a).rewrite tree) := by
  rcases hall : Anchor.resolveAll p.treeOf anchors.toList with ⟨outcome, others⟩
  rw [resolve, hall] at hresolve
  obtain ⟨rfl, rfl⟩ := Prod.mk.inj hresolve
  obtain ⟨hlength, hget⟩ := List.forall₂_iff_get.mp (Anchor.forall₂_of_resolveAll_ok hall)
  obtain ⟨hleft, hat⟩ := List.getElem?_eq_some_iff.mp ha
  have hright : id < others.length := hlength ▸ hleft
  have hreplaced := hget id hleft hright
  rw [List.get_eq_getElem, List.get_eq_getElem, hat] at hreplaced
  obtain ⟨tree, hb, htree⟩ := hreplaced
  have htree : p.treeOf a = .ok tree := by
    rcases htree with htree | ⟨-, htree⟩
    · rw [hfresh] at htree
      cases htree
    · exact htree
  have hfound : AnchorQueue.get? ⟨others⟩ id = some { a with resolved := some tree } :=
    List.getElem?_eq_some_iff.mpr ⟨hright, hb⟩
  have hquery := phraseQuery_of_resolved (p := p) hfound rfl
  exact ⟨tree, htree, hquery⟩

end Parser

/-- The anchors of an expression have the placeholders of its query as their numbers. -/
theorem Expression.placeholders_query_eq_range (e : Expression) (inOrder : Bool) :
    (e.query 0).placeholders = List.range (AnchorQueue.size ⟨e.anchors inOrder⟩) := by
  rw [placeholders_query, List.range_eq_range', AnchorQueue.size, anchors,
    length_filterMap_anchor?, phraseCount]

/-- A captured anchor has no tree yet, and the order of its words is that of the configuration. -/
theorem Expression.fresh_of_mem_anchors {e : Expression} {inOrder : Bool} {a : Anchor}
    (h : a ∈ e.anchors inOrder) : a.resolved = none ∧ a.inOrder = inOrder := by
  obtain ⟨call, -, hanchor⟩ := List.mem_filterMap.mp h
  cases call with
  | phrase g raw slop =>
    injection hanchor with hanchor
    exact hanchor ▸ ⟨rfl, rfl⟩
  | term g text => cases hanchor
  | multiTerm g which => cases hanchor
  | boolean clauses => cases hanchor
  | boost clause factor => cases hanchor

open Expression in
/-- Parsing replaces the placeholders of the captured query and nothing else. -/
theorem Parser.exists_replace_of_parse {p : Parser} {text : String} {query result : Query}
    {anchors : AnchorQueue} (hcapture : p.capture text = .ok (query, anchors))
    (hparse : p.parse text = .ok result) :
    ∃ put : Nat → Query,
      (∀ id a, anchors.get? id = some a →
        ∃ tree, p.treeOf a = .ok tree ∧ put id = (p.rewriterOf a).rewrite tree) ∧
      result = query.replace put ∧ result.hasPlaceholders = false := by
  obtain ⟨query', anchors', n, resolved, hcapture', hresolve, hsubstitute⟩ :=
    exists_stages_of_parse hparse
  rw [hcapture] at hcapture'
  obtain ⟨rfl, rfl⟩ := Prod.mk.inj (Except.ok.inj hcapture')
  obtain ⟨e, -, rfl, rfl⟩ := capture_eq_ok_iff.mp hcapture
  have hquery : ∀ id, ∃ put, ∀ a, AnchorQueue.get? ⟨e.anchors p.config.inOrder⟩ id = some a →
      ∃ tree, p.treeOf a = .ok tree ∧ put = (p.rewriterOf a).rewrite tree ∧
        p.phraseQuery resolved id = .ok put := by
    intro id
    cases ha : AnchorQueue.get? ⟨e.anchors p.config.inOrder⟩ id with
    | none => exact ⟨e.query 0, nofun⟩
    | some a =>
      have hfresh := (fresh_of_mem_anchors (List.mem_of_getElem? ha)).1
      obtain ⟨tree, htree, hphrase⟩ := exists_phraseQuery_of_get? hresolve ha hfresh
      refine ⟨(p.rewriterOf a).rewrite tree, fun a' ha' => ?_⟩
      obtain rfl := Option.some.inj ha'
      exact ⟨tree, htree, rfl, hphrase⟩
  choose put hput using hquery
  -- every placeholder is the number of an anchor
  have hplace : ∀ id ∈ (e.query 0).placeholders, ∃ a,
      AnchorQueue.get? ⟨e.anchors p.config.inOrder⟩ id = some a := by
    intro id hid
    rw [placeholders_query_eq_range e p.config.inOrder, List.mem_range] at hid
    exact ⟨_, List.getElem?_eq_getElem hid⟩
  have hphrase : ∀ id ∈ (e.query 0).placeholders, p.phraseQuery resolved id = .ok (put id) := by
    intro id hid
    obtain ⟨a, ha⟩ := hplace id hid
    obtain ⟨tree, -, -, hphrase⟩ := hput id a ha
    exact hphrase
  have hreplace : result = (e.query 0).replace put :=
    Except.ok.inj (hsubstitute.symm.trans (substitute_eq_ok hphrase))
  refine ⟨put, fun id a ha => ?_, hreplace, ?_⟩
  · obtain ⟨tree, htree, hrewrite, -⟩ := hput id a ha
    exact ⟨tree, htree, hrewrite⟩
  · rw [hreplace]
    refine Query.hasPlaceholders_replace fun id hid => ?_
    obtain ⟨a, ha⟩ := hplace id hid
    obtain ⟨tree, -, hrewrite, -⟩ := hput id a ha
    rw [hrewrite]
    exact Rewriter.hasPlaceholders_rewrite _ _

open Expression in
/-- A captured query has the numbers of its anchors as its placeholders, from left to right and each
once. The anchors are unresolved, carry the order of the configuration, and have raw texts that
stand in the text one after the other, each between two quotes of its own. What parsing makes of the
text is the captured query with every placeholder replaced by the query of its phrase, and has no
placeholder left. On any query and any queue, substitution fails just for the leftmost placeholder
that has no anchor or an unresolved one. -/
theorem placeholders_of_capture (p : Parser) :
    (∀ text query anchors, p.capture text = .ok (query, anchors) →
      query.placeholders = List.range anchors.size ∧
      (∀ a ∈ anchors.toList, a.resolved = none ∧ a.inOrder = p.config.inOrder) ∧
      QuotedIn (anchors.toList.map fun a => a.rawText.toList) text.toList ∧
      ∀ result, p.parse text = .ok result →
        ∃ put : Nat → Query,
          (∀ id a, anchors.get? id = some a →
            ∃ tree, p.treeOf a = .ok tree ∧ put id = (p.rewriterOf a).rewrite tree) ∧
          result = query.replace put ∧ result.hasPlaceholders = false) ∧
    ∀ (anchors : AnchorQueue) (query : Query),
      ((∃ error, p.substitute anchors query = .error error) ↔
        ∃ id ∈ query.placeholders, anchors.get? id = none ∨
          ∃ a, anchors.get? id = some a ∧ a.resolved = none) ∧
      ∀ error, p.substitute anchors query = .error error ↔
        ∃ before id after what, query.placeholders = before ++ id :: after ∧
          (∀ other ∈ before, anchors.defect? other = none) ∧
          anchors.defect? id = some what ∧ error = .unsupportedClause what := by
  refine ⟨fun text query anchors hcapture => ?_, fun anchors query =>
    ⟨Parser.exists_substitute_error_iff, fun error => Parser.substitute_eq_error_iff⟩⟩
  obtain ⟨e, he, rfl, rfl⟩ := Parser.capture_eq_ok_iff.mp hcapture
  refine ⟨placeholders_query_eq_range e _, fun a ha => fresh_of_mem_anchors ha, ?_,
    fun result hparse => Parser.exists_replace_of_parse hcapture hparse⟩
  rw [map_rawText_anchors]
  exact quotedIn_of_ofText? he

/-- Two phrases, the second of them in a group, get the placeholders 0 and 1 and are replaced. -/
theorem placeholders_of_two_phrases :
    ∃ query anchors result,
      ({} : Parser).capture "\"a b\"~2 (john \"c\")" = .ok (query, anchors) ∧
      ({} : Parser).parse "\"a b\"~2 (john \"c\")" = .ok result ∧
      anchors.size = 2 ∧ query.placeholders = List.range 2 ∧ result.hasPlaceholders = false := by
  have hcapture : ({} : Parser).capture "\"a b\"~2 (john \"c\")" = .ok
      (.boolean [(.phrase 0, .should),
        (.boolean [(.term ⟨"body", "john", 1⟩, .should), (.phrase 1, .should)], .should)],
      ⟨[{ field := "body", rawText := "a b", slop := 2, inOrder := true },
        { field := "body", rawText := "c", slop := 0, inOrder := true }]⟩) := by
    cbv
  have hparse : ({} : Parser).parse "\"a b\"~2 (john \"c\")" = .ok
      (.boolean [
        (.positional (.near [.term ⟨"body", "a", 1⟩, .term ⟨"body", "b", 1⟩] 2 true), .should),
        (.boolean [(.term ⟨"body", "john", 1⟩, .should), (.term ⟨"body", "c", 1⟩, .should)],
          .should)]) := by
    cbv
  have h := (placeholders_of_capture {}).1 _ _ _ hcapture
  obtain ⟨put, -, -, hdone⟩ := h.2.2.2 _ hparse
  exact ⟨_, _, _, hcapture, hparse, rfl, h.1, hdone⟩

end ProximityQuery
