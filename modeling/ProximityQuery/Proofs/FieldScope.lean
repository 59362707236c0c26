import Mathlib
import ProximityQuery.Proofs.Resolution

/-!
# Field scope of phrases

Every leaf of a resolved phrase is about the field of its anchor, expanded terms included. When a
phrase is refused, the first call of its text that offends decides the error, before any
malformation of the text is reported; only a text without such a call is refused as malformed.
-/

namespace ProximityQuery

/-- Scaling a tree scales its leaves. -/
theorem ClauseTree.leaves_scale (factor : Float32) (tree : ClauseTree) :
    (tree.scale factor).leaves = tree.leaves.map (·.scale factor) := by
  induction tree with
  | term t => rfl
  | composite children ih =>
    simp only [scale, leaves, leavesAll_eq_flatMap, scaleAll_eq_map, List.flatMap_map,
      List.map_flatMap]
    exact List.flatMap_congr ih

namespace Expression

/-- Without a call that offends, every leaf of the tree is about the field of the anchor. -/
theorem field_of_mem_leaves_tree {regex : Regex.Compiler} {anchorField : String}
    {dictionary : Dictionary} {limit : Nat} (e : Expression)
    (h : ∀ c ∈ e.calls, offence regex anchorField dictionary limit c = none) :
    ∀ t ∈ (e.tree dictionary).leaves, t.field = anchorField := by
  induction e with
  | term field text =>
    have hf := h _ (List.mem_singleton.mpr rfl)
    intro t ht
    rw [tree, ClauseTree.leaves, List.mem_singleton] at ht
    subst ht
    by_contra hne
    simp [offence, hne] at hf
  | multiTerm field which =>
    have hf := h _ (List.mem_singleton.mpr rfl)
    intro t ht
    rw [tree, ClauseTree.leaves_anyOf, List.mem_map] at ht
    obtain ⟨text, -, rfl⟩ := ht
    exact (offence_multiTerm_eq_none_iff.mp hf).1
  | phrase field raw slop =>
    intro t ht
    simp [tree, ClauseTree.leaves, ClauseTree.leavesAll] at ht
  | boolean clauses ih =>
    intro t ht
    simp only [tree, ClauseTree.leaves, ClauseTree.leavesAll_eq_flatMap, treesOfClauses_eq_map,
      List.flatMap_map, List.mem_flatMap] at ht
    obtain ⟨c, hc, htc⟩ := ht
    refine ih c hc (fun call hcall => h call ?_) t htc
    rw [calls, callsOfClauses_eq_flatMap]
    exact List.mem_append_left _ (List.mem_flatMap.mpr ⟨c, hc, hcall⟩)
  | boost clause factor ih =>
    intro t ht
    rw [tree, ClauseTree.leaves_scale, List.mem_map] at ht
    obtain ⟨u, hu, rfl⟩ := ht
    exact ih (fun call hcall => h call (List.mem_append_left _ hcall)) u hu

/-- The same of the tree of a whole phrase. -/
theorem field_of_mem_leaves_phraseTree {regex : Regex.Compiler} {anchorField : String}
    {dictionary : Dictionary} {limit : Nat} (e : Expression)
    (h : ∀ c ∈ e.calls, offence regex anchorField dictionary limit c = none) :
    ∀ t ∈ (e.phraseTree dictionary).leaves, t.field = anchorField := by
  have htree := field_of_mem_leaves_tree e h
  unfold phraseTree
  split
  · simpa [ClauseTree.leaves, ClauseTree.leavesAll] using htree
  · exact htree

end Expression

open Expression in
/-- The tree of a resolved anchor has leaves of the field of the anchor only. An anchor is refused
with an error just when that error is the offence of the first call that offends, among those the
recorder sees while it reads the raw text, or when no call offends and the text is malformed. A
pattern that the package of regular expressions refuses offends in its own field, whatever the
number of its terms. -/
theorem treeOf_field_scope (p : Parser) (a : Anchor) :
    (∀ tree, p.treeOf a = .ok tree → ∀ t ∈ tree.leaves, t.field = a.field) ∧
    ∀ error, p.treeOf a = .error error ↔
      (∃ before call after,
        callsOfText p.config.dialect a.field a.rawText = before ++ call :: after ∧
        (∀ c ∈ before, c.offence p.regex a.field p.dictionary p.config.maxExpansions = none) ∧
        call.offence p.regex a.field p.dictionary p.config.maxExpansions = some error) ∨
      (∀ c ∈ callsOfText p.config.dialect a.field a.rawText,
        c.offence p.regex a.field p.dictionary p.config.maxExpansions = none) ∧
        ∃ m, ofText? p.config.dialect a.field a.rawText = .error m ∧ error = .malformed m := by
  constructor
  · intro tree htree
    obtain ⟨hnone, e, he, rfl⟩ := (p.treeOf_eq_ok_iff a tree).mp htree
    rw [callsOfText_eq_calls he] at hnone
    exact field_of_mem_leaves_phraseTree e hnone
  · exact p.treeOf_eq_error_iff a

open Expression in
/-- A phrase about `body` has its words in that field, and a word of another field is reported even
though the text breaks off in a group after it. So is a pattern that is too long for the package. -/
theorem field_scope_of_two_words :
    (∃ tree, ({} : Parser).treeOf
        { field := "body", rawText := "john smith", slop := 0, inOrder := true } = .ok tree ∧
      ∀ t ∈ tree.leaves, t.field = "body") ∧
    ({} : Parser).treeOf
        { field := "body", rawText := "john title:smith (", slop := 0, inOrder := true } =
      .error (.fieldMismatch "title" "body") ∧
    let short : Regex.Compiler :=
      { refusal? := fun expression => if 4 < expression.length then some "too long" else none }
    Parser.treeOf { regex := short }
        { field := "body", rawText := "john sm? (", slop := 0, inOrder := true } =
      .error (.invalidPattern "sm?" "too long") := by
  refine ⟨?_, ?_, ?_⟩
  · have htree : ({} : Parser).treeOf
        { field := "body", rawText := "john smith", slop := 0, inOrder := true } =
        .ok (.composite [(.term { field := "body", text := "john" }, .should),
          (.term { field := "body", text := "smith" }, .should)]) := by
      cbv
    exact ⟨_, htree, (treeOf_field_scope _ _).1 _ htree⟩
  · refine ((treeOf_field_scope _ _).2 _).mpr
      (.inl ⟨[.term "body" "john"], .term "title" "smith", [.boolean []], ?_, ?_, ?_⟩)
    · cbv
    · simp [offence]
    · simp [offence]
  · intro short
    have hrefused : (MultiTerm.wildcard "sm?").refusal? short =
        some (.invalidPattern "sm?" "too long") := by
      cbv
    refine ((treeOf_field_scope _ _).2 _).mpr
      (.inl ⟨[.term "body" "john"], .multiTerm "body" (.wildcard "sm?"), [.boolean []], ?_, ?_, ?_⟩)
    · cbv
    · simp [offence]
    · simp [offence, hrefused]

end ProximityQuery
