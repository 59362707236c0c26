import ProximityQuery.Proofs.ContinuedLevel
import ProximityQuery.Proofs.Influence

/-!
# Groups

A query in parentheses is read as it is on its own. Any number of such groups can stand side by
side: each keeps its tree, and its phrases are numbered on from those of the groups before it. A
name before a group takes the place of the default field in it, at every depth, and nothing else of
the parse depends on the default field.
-/

namespace ProximityQuery

open Grammar

/-- Whether a text is read to its end when no more than `levels` nesting levels may be opened in
it. -/
def NestsWithin (d : Dialect) (levels : Nat) (field text : String) : Prop :=
  ∃ items, SpellsLevel d levels field text.toList items

/-- A text in parentheses. -/
def groupText (text : String) : String :=
  "(" ++ text ++ ")"

/-- A text in parentheses begins and ends with one. -/
theorem toList_groupText (text : String) :
    (groupText text).toList = '(' :: (text.toList ++ [')']) := by
  simp [groupText]

section

variable {d : Dialect} {levels : Nat} {field text : String} {e : Expression}

/-- A text in parentheses starts a clause, which is the expression of the text on its own. -/
theorem NestsWithin.spellsStart_groupText (h : NestsWithin d levels field text)
    (hclosed : EscapesClosed text.toList) (hlevels : levels ≤ nestingLimit)
    (he : Expression.ofText? d field text = .ok e) :
    SpellsStart d (levels + 1) field (groupText text).toList e := by
  obtain ⟨items, hitems⟩ := h
  obtain ⟨more, hmore⟩ := Nat.exists_eq_add_of_le hlevels
  have hall := hitems.add_levels hclosed more
  rw [← hmore] at hall
  have hlevel := Expression.ofText?_eq_ok_iff_spellsLevel.mpr ⟨items, hall, rfl⟩
  obtain rfl := Except.ok.inj (hlevel.symm.trans he)
  rw [toList_groupText]
  exact hitems.group hclosed

end

namespace Query

/-- A query with its placeholders numbered on from `first`. -/
def shift (first : Nat) (query : Query) : Query :=
  query.replace fun id => .phrase (first + id)

/-- A boost does not touch the numbers. -/
theorem shift_boostBy (first : Nat) (factor : Float32) (query : Query) :
    (query.boostBy factor).shift first = (query.shift first).boostBy factor := by
  cases query <;> rfl

end Query

namespace Expression

/-- Counting the placeholders of some clauses from a later number on shifts them all by the
difference. -/
theorem queriesOfClauses_add {clauses : List (Expression × Occur)} (k : Nat)
    (h : ∀ c ∈ clauses, ∀ first, c.1.query (k + first) = (c.1.query first).shift k)
    (first : Nat) :
    queriesOfClauses (k + first) clauses =
      (queriesOfClauses first clauses).map fun c => (c.1.shift k, c.2) := by
  induction clauses generalizing first with
  | nil => rfl
  | cons c rest ih =>
    have hc := h c List.mem_cons_self first
    have hrest := ih (fun c hmem => h c (List.mem_cons_of_mem _ hmem)) (first + c.1.phraseCount)
    rw [queriesOfClauses, queriesOfClauses, List.map_cons, hc, Nat.add_assoc, hrest]

/-- Numbering the phrases on from a later number shifts their numbers. -/
theorem query_add (k : Nat) (e : Expression) (first : Nat) :
    e.query (k + first) = (e.query first).shift k := by
  induction e generalizing first with
  | term field text => rfl
  | multiTerm field which => rfl
  | phrase field raw slop => rfl
  | boolean clauses ih =>
    have hclauses := queriesOfClauses_add k ih first
    rw [query, query, hclauses, Query.shift, Query.replace, Query.replaceAll_eq_map]
    rfl
  | boost clause factor ih => rw [query, query, ih, Query.shift_boostBy]

end Expression

/-- A query text with what capture makes of it. -/
structure CapturedText where
  text : String
  tree : Query
  anchors : AnchorQueue

namespace CapturedText

/-- Whether a text is captured as it says, and can be put in parentheses. -/
structure FitsGroup (p : Parser) (q : CapturedText) : Prop where
  captured : p.capture q.text = .ok (q.tree, q.anchors)
  /-- The parentheses take one of the 128 levels. -/
  nests : NestsWithin p.config.dialect 127 p.config.defaultField q.text
  /-- No escape at the end takes the closing parenthesis. -/
  closed : EscapesClosed q.text.toList

/-- Texts in parentheses with single blanks between them. -/
def groupsText (qs : List CapturedText) : String :=
  " ".intercalate (qs.map fun q => groupText q.text)

/-- The trees of texts one after the other, each numbered on from the anchors of the texts before
it. -/
def treesFrom (first : Nat) : List CapturedText → List Query
  | [] => []
  | q :: rest => q.tree.shift first :: treesFrom (first + q.anchors.size) rest

/-- The part of a clause with no sign and no conjunction about it. -/
def plainOccur : Operator → Occur
  | .or => .should
  | .and => .must

/-- The tree of groups side by side: of a single one its own, and of others their combination. -/
def groupsTree (op : Operator) : List CapturedText → Query
  | [q] => q.tree
  | qs => .boolean ((treesFrom 0 qs).map fun tree => (tree, plainOccur op))

/-- Several groups, or none, make a level of as many optional or required clauses. -/
theorem groupsTree_of_ne {op : Operator} {qs : List CapturedText} (h : ∀ q, qs ≠ [q]) :
    groupsTree op qs = .boolean ((treesFrom 0 qs).map fun tree => (tree, plainOccur op)) := by
  rw [groupsTree.eq_def]
  split
  next q => exact absurd rfl (h q)
  next => rfl

variable {p : Parser} {qs : List CapturedText}

/-- The clauses of a level with nothing written before them. -/
def bareItems (e : CapturedText → Expression) (qs : List CapturedText) : List (Item Expression) :=
  qs.map fun q => { mark := { conjunction := none, modifier := none }, clause := e q }

/-- A group is one clause of a level, with the expression that its text is on its own. -/
theorem FitsGroup.exists_spellsItem {q : CapturedText} (h : q.FitsGroup p) :
    ∃ e : Expression,
      SpellsItem (readPrimary Expression.builder p.config.dialect nestingLimit)
        p.config.defaultField (groupText q.text).toList
        { mark := { conjunction := none, modifier := none }, clause := e } ∧
      q.tree = e.query 0 ∧ q.anchors = ⟨e.anchors p.config.inOrder⟩ := by
  obtain ⟨e, he, htree, hanchors⟩ := Parser.capture_eq_ok_iff.mp h.captured
  have hstart := h.nests.spellsStart_groupText h.closed (by decide) he
  exact ⟨e, hstart.spellsClause.spellsItem false none, htree, hanchors⟩

/-- Groups side by side are the expression of a level. -/
theorem ofText?_groupsText {d : Dialect} {field : String} {e : CapturedText → Expression}
    (h : ∀ q ∈ qs, SpellsItem (readPrimary Expression.builder d nestingLimit) field
      (groupText q.text).toList
      { mark := { conjunction := none, modifier := none }, clause := e q }) :
    Expression.ofText? d field (groupsText qs) = .ok (levelOf d.operator (bareItems e qs)) := by
  have htext : groupsText qs =
      String.ofList ([' '].intercalate (qs.map fun q => (groupText q.text).toList)) := by
    refine String.toList_injective ?_
    rw [String.toList_ofList, groupsText, String.toList_intercalate, List.map_map]
    rfl
  rw [htext]
  refine Expression.ofText?_intercalate ?_
  rw [bareItems, List.forall₂_map_left_iff, List.forall₂_map_right_iff]
  exact List.forall₂_same.mpr h

section

variable {e : CapturedText → Expression} {inOrder : Bool}
  (h : ∀ q ∈ qs, q.tree = (e q).query 0 ∧ q.anchors = ⟨(e q).anchors inOrder⟩)

include h

/-- The queries of several expressions are the trees, numbered one after the other. -/
theorem queriesOfClauses_eq_treesFrom (occur : Occur) (first : Nat) :
    Expression.queriesOfClauses first (qs.map fun q => (e q, occur)) =
      (treesFrom first qs).map fun tree => (tree, occur) := by
  induction qs generalizing first with
  | nil => rfl
  | cons q rest ih =>
    obtain ⟨htree, hanchors⟩ := h q List.mem_cons_self
    have hrest := ih (fun q hq => h q (List.mem_cons_of_mem _ hq)) (first + q.anchors.size)
    have hsize : (e q).phraseCount = q.anchors.size := by
      rw [hanchors, AnchorQueue.size, Expression.anchors, Expression.length_filterMap_anchor?]
      rfl
    have hquery : (e q).query first = q.tree.shift first := by
      rw [htree, ← Expression.query_add, Nat.add_zero]
    rw [List.map_cons, Expression.queriesOfClauses, treesFrom, List.map_cons, hquery, hsize, hrest]

/-- The phrases of several expressions follow one another. -/
theorem anchors_boolean_eq_flatMap (occur : Occur) :
    (Expression.boolean (qs.map fun q => (e q, occur))).anchors inOrder =
      qs.flatMap fun q => q.anchors.toList := by
  have heach : ∀ q ∈ qs, (e q).anchors inOrder = q.anchors.toList := by
    intro q hq
    rw [(h q hq).2]
  have hself : (Expression.boolean (qs.map fun q => (e q, occur))).anchor? inOrder = none := rfl
  rw [Expression.anchors, Expression.calls, Expression.callsOfClauses_eq_flatMap,
    List.filterMap_append, List.filterMap_cons_none hself, List.filterMap_nil, List.append_nil,
    List.flatMap_map, List.filterMap_flatMap]
  exact List.flatMap_congr heach

/-- What is captured of groups side by side. -/
theorem query_and_anchors_of_groups (op : Operator) :
    (levelOf op (bareItems e qs)).query 0 = groupsTree op qs ∧
      (levelOf op (bareItems e qs)).anchors inOrder = qs.flatMap fun q => q.anchors.toList := by
  by_cases hone : ∃ q, qs = [q]
  · obtain ⟨q, rfl⟩ := hone
    obtain ⟨htree, hanchors⟩ := h q (List.mem_singleton.mpr rfl)
    have hlevel : levelOf op (bareItems e [q]) = e q := levelOf_bare op rfl
    rw [hlevel, groupsTree, htree, List.flatMap_singleton, hanchors]
    exact ⟨rfl, rfl⟩
  · have hne : ∀ q, qs ≠ [q] := fun q hq => hone ⟨q, hq⟩
    have hoccur : Mark.occur op { conjunction := none, modifier := none } = plainOccur op := by
      cases op <;> rfl
    have hlevel : levelOf op (bareItems e qs) =
        .boolean (qs.map fun q => (e q, plainOccur op)) := by
      rw [← hoccur]
      exact levelOf_map op _ e (fun q hq => absurd hq (hne q)) fun _ _ _ => rfl
    rw [hlevel, groupsTree_of_ne hne, Expression.query, queriesOfClauses_eq_treesFrom h]
    exact ⟨rfl, anchors_boolean_eq_flatMap h _⟩

end

end CapturedText

open CapturedText in
/-- Groups side by side are captured when their texts are, however many they are. The phrases of the
groups follow one another in the queue. A single group has the tree of its text; other groups are
combined in the part that the operator gives, each with its phrases numbered on from those before
it. -/
theorem capture_groupsText (p : Parser) (qs : List CapturedText) (h : ∀ q ∈ qs, q.FitsGroup p) :
    p.capture (groupsText qs) =
      .ok (groupsTree p.config.defaultOperator qs, ⟨qs.flatMap fun q => q.anchors.toList⟩) := by
  have hnonempty : Nonempty Expression := ⟨.boolean []⟩
  choose! e hitem hquery using fun q hq => (h q hq).exists_spellsItem
  have hexpression := ofText?_groupsText hitem
  obtain ⟨htree, hanchors⟩ := query_and_anchors_of_groups hquery p.config.defaultOperator
  rw [← htree, ← hanchors]
  exact Parser.capture_eq_ok_iff.mpr ⟨_, hexpression, rfl, rfl⟩

open CapturedText in
/-- The phrase of the second group is numbered on from that of the first. -/
theorem capture_groupsText_of_two_phrases :
    Parser.capture {} "(a \"b c\") (+\"d\")" = .ok (.boolean
      [(.boolean [(.term ⟨"body", "a", 1⟩, .should), (.phrase 0, .should)], .should),
        (.boolean [(.phrase 1, .must)], .should)],
      ⟨[{ field := "body", rawText := "b c", slop := 0, inOrder := true },
        { field := "body", rawText := "d", slop := 0, inOrder := true }]⟩) := by
  let first : CapturedText :=
    { text := "a \"b c\""
      tree := .boolean [(.term ⟨"body", "a", 1⟩, .should), (.phrase 0, .should)]
      anchors := ⟨[{ field := "body", rawText := "b c", slop := 0, inOrder := true }]⟩ }
  let second : CapturedText :=
    { text := "+\"d\""
      tree := .boolean [(.phrase 0, .must)]
      anchors := ⟨[{ field := "body", rawText := "d", slop := 0, inOrder := true }]⟩ }
  have hfirst : first.FitsGroup {} := by
    refine ⟨by cbv, ⟨[⟨⟨none, none⟩, .term "body" "a"⟩, ⟨⟨none, none⟩, .phrase "body" "b c" 0⟩],
      ?_⟩, by decide⟩
    cbv
  have hsecond : second.FitsGroup {} := by
    refine ⟨by cbv, ⟨[⟨⟨none, some .required⟩, .phrase "body" "d" 0⟩], ?_⟩, by decide⟩
    cbv
  have hboth : ∀ q ∈ [first, second], q.FitsGroup {} := by simp [hfirst, hsecond]
  have htext : groupsText [first, second] = "(a \"b c\") (+\"d\")" := by cbv
  rw [← htext, capture_groupsText {} [first, second] hboth]
  rfl

/-- A field name in escapes before a text in parentheses. -/
def fieldGroupText (field : Word) (text : String) : String :=
  String.ofList (escaped field) ++ ":" ++ groupText text

/-- A group with a name before it is the expression of its text about that field, whichever field
it stands in. -/
theorem NestsWithin.ofText?_fieldGroupText {d : Dialect} {field : Word} {text : String}
    {e : Expression} (h : NestsWithin d 126 field text) (hclosed : EscapesClosed text.toList)
    (he : Expression.ofText? d field text = .ok e) (outer : String) :
    Expression.ofText? d outer (fieldGroupText field text) = .ok e := by
  have hgroup := h.spellsStart_groupText hclosed (by decide) he
  have hvalue : lacksValue (groupText text).toList = false := by
    rw [toList_groupText]
    rfl
  have hnamed : SpellsStart d nestingLimit outer
      (escaped field ++ ':' :: (groupText text).toList) e :=
    .named outer field hvalue hgroup.reads
  have htext : String.ofList (escaped field ++ ':' :: (groupText text).toList) =
      fieldGroupText field text := by
    refine String.toList_injective ?_
    simp [fieldGroupText]
  rw [← htext]
  exact hnamed.spellsClause.ofText?

/-- The parser with another default field. -/
def Parser.about (p : Parser) (field : String) : Parser :=
  { p with config := { p.config with defaultField := field } }

/-- Naming a field before a group is the same as making it the default field for the text of the
group: the outcome of the parse is the same, tree or error. Whatever the default field is, it has no
say in what is captured of the group, in how its phrases are resolved and in the outcome. -/
theorem parse_fieldGroupText (p : Parser) {field : Word} {text : String} {query : Query}
    {anchors : AnchorQueue} (hcapture : (p.about field).capture text = .ok (query, anchors))
    (hnests : NestsWithin p.config.dialect 126 field text)
    (hclosed : EscapesClosed text.toList) :
    p.parse (fieldGroupText field text) = (p.about field).parse text ∧
    ∀ outer : String,
      (p.about outer).capture (fieldGroupText field text) = .ok (query, anchors) ∧
      (p.about outer).resolve anchors = (p.about field).resolve anchors ∧
      (p.about outer).parse (fieldGroupText field text) = (p.about field).parse text := by
  have hgroup : ∀ outer : String,
      (p.about outer).capture (fieldGroupText field text) = .ok (query, anchors) := by
    intro outer
    obtain ⟨e, he, hquery, hanchors⟩ := Parser.capture_eq_ok_iff.mp hcapture
    exact Parser.capture_eq_ok_iff.mpr
      ⟨e, hnests.ofText?_fieldGroupText hclosed he outer, hquery, hanchors⟩
  -- a phrase is resolved about its own field, so the trees are the same too
  have hparse : ∀ outer : String,
      (p.about outer).parse (fieldGroupText field text) = (p.about field).parse text :=
    fun outer => Parser.parse_congr ((hgroup outer).trans hcapture.symm) rfl fun _ _ _ _ _ => rfl
  exact ⟨hparse p.config.defaultField, fun outer => ⟨hgroup outer, rfl, hparse outer⟩⟩

/-- In a group about `title` the phrase and the nested group are about `title`, and what names
another field is about that. -/
theorem parse_fieldGroupText_of_nested_group :
    let p : Parser := { dictionary := .ofTerms "title" ["john"] }
    p.parse "\\t\\i\\t\\l\\e:(\"jo*\" (b author:c))" = .ok (.boolean
      [(.positional (.near [.term ⟨"title", "john", (Float32.toFloat 1).toFloat32⟩] 0 true),
          .should),
        (.boolean [(.term ⟨"title", "b", 1⟩, .should), (.term ⟨"author", "c", 1⟩, .should)],
          .should)]) := by
  intro p
  let field : Word := ⟨"title", by decide⟩
  let phrase : Anchor := { field := "title", rawText := "jo*", slop := 0, inOrder := true }
  have hcapture : (p.about field).capture "\"jo*\" (b author:c)" = .ok (.boolean
      [(.phrase 0, .should), (.boolean [(.term ⟨"title", "b", 1⟩, .should),
        (.term ⟨"author", "c", 1⟩, .should)], .should)], ⟨[phrase]⟩) := by
    cbv
  have hnests : NestsWithin p.config.dialect 126 field "\"jo*\" (b author:c)" := by
    refine ⟨[⟨⟨none, none⟩, .phrase "title" "jo*" 0⟩, ⟨⟨none, none⟩, .boolean
      [(.term "title" "b", .should), (.term "author" "c", .should)]⟩], ?_⟩
    cbv
  obtain ⟨hsame, -⟩ := parse_fieldGroupText p hcapture hnests (by decide)
  have htext : fieldGroupText field "\"jo*\" (b author:c)" =
      "\\t\\i\\t\\l\\e:(\"jo*\" (b author:c))" := by cbv
  rw [← htext, hsame]
  cbv

end ProximityQuery
