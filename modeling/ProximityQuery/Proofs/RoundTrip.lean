import ProximityQuery.Proofs.Nesting
import ProximityQuery.Proofs.Source

/-!
# Round trip

Where clauses without a sign are optional, the text of a query is read back as that query, however
the choices that the text leaves are made, as long as it opens no more nesting levels than there
are; a text that opens more is refused.
-/

namespace ProximityQuery

open Grammar

/-- A literal is made of digits and points. -/
theorem Literal.isNumeral_of_mem (l : Literal) : ∀ c ∈ l.digits, isNumeral c = true := by
  intro c hc
  have hvalue := l.value_eq
  rw [Decimal.float32?, Option.map_eq_some_iff] at hvalue
  obtain ⟨n, hfixed, -⟩ := hvalue
  have hsplit : l.digits.takeWhile Char.isDigit ++ l.digits.dropWhile Char.isDigit = l.digits :=
    List.takeWhile_append_dropWhile
  rw [← hsplit, List.mem_append] at hc
  have hwhole : ∀ c ∈ l.digits.takeWhile Char.isDigit, isNumeral c = true := by
    intro c hmem
    have hdigit : c.isDigit = true := List.mem_takeWhile_imp hmem
    simp [isNumeral, hdigit]
  rcases hc with hbefore | hafter
  · exact hwhole c hbefore
  · rw [Decimal.fixedPoint?] at hfixed
    split at hfixed
    next hnil =>
      rw [hnil] at hafter
      cases hafter
    next places hpoint =>
      rw [hpoint] at hafter
      split at hfixed
      next hplaces =>
        rcases List.mem_cons.mp hafter with rfl | hmem
        · rfl
        · have hdigit := List.all_eq_true.mp hplaces c hmem
          simp [isNumeral, hdigit]
      next => cases hfixed
    next => cases hfixed

/-- A pattern has at least the letter that is its wildcard. -/
theorem Pattern.letters_ne_nil (p : Pattern) : p.letters ≠ [] := by
  intro h
  have hwild := p.wild
  rw [h] at hwild
  cases hwild

namespace Leaf

/-- A leaf can stand after the name of its field. -/
theorem lacksValue_text (l : Leaf) : lacksValue l.text = false := by
  have hword : ∀ (word : Word) (rest : List Char), lacksValue (escaped word ++ rest) = false := by
    intro word rest
    rw [escaped_eq_written]
    exact lacksValue_written (map_escaped_ne_nil word.property) (isReadable_escaped word) rest
  cases l with
  | term text =>
    have h := hword text []
    rw [List.append_nil] at h
    exact h
  | wildcard pattern =>
    have h := lacksValue_written pattern.letters_ne_nil pattern.readable []
    rw [List.append_nil] at h
    exact h
  | fuzzy text edits => exact hword text _
  | range interval lower upper =>
    rw [text]
    cases interval.includesLower <;> rfl

/-- A leaf is read back. -/
theorem readPrimary_text (d : Dialect) (levels : Nat) (field : String) (l : Leaf)
    {rest : List Char} (hrest : EndsStart rest) :
    readPrimary Expression.builder d levels field (l.text ++ rest) =
      pure (l.expression field, rest) := by
  cases l with
  | term text => exact readPrimary_word d levels field text.property hrest
  | wildcard pattern =>
    exact readPrimary_wildcard d levels field pattern.readable pattern.wild hrest
  | fuzzy text edits =>
    have hfuzzy := readPrimary_fuzzy d levels field text.property edits hrest
    have hshape : (Leaf.fuzzy text edits).text ++ rest =
        escaped text ++ '~' :: (numeral edits ++ rest) := by
      simp [Leaf.text]
    rw [hshape]
    exact hfuzzy
  | range interval lower upper =>
    have hrange := readPrimary_range d levels field lower upper rest
    have hshape : (Leaf.range interval lower upper).text ++ rest =
        openBracket interval.includesLower ::
          (intervalText interval ++ closeBracket interval.includesUpper :: rest) := by
      simp [Leaf.text]
    rw [hshape]
    exact hrange

end Leaf

/-- The mark that a clause of a level is written with. -/
def Style.mark (style : Style) (alone : Bool) (occur : Occur) : Mark :=
  markOf (style.joined alone occur) occur.modifier

/-- Where clauses without a sign are optional, the mark of a clause gives it its part, and no mark
changes the part of the clause before it. -/
theorem Style.occur_mark (style : Style) (alone : Bool) (occur : Occur) :
    (style.mark alone occur).occur .or = occur := by
  rw [mark, markOf]
  cases occur with
  | must => rfl
  | mustNot => rfl
  | should => cases style.joined alone .should <;> rfl

/-- No mark of a written clause changes the occur of the clause before it. -/
theorem Style.revise_mark (style : Style) (alone : Bool) (occur before : Occur) :
    before.revise .or (style.mark alone occur).conjunction = before := by
  rw [mark, markOf]
  cases style.joined alone occur <;> rfl

namespace Source

/-- A child as the clause of its level. -/
def item (style : Style) (alone : Bool) (child : Source × Occur) : Item Expression where
  mark := style.mark alone child.2
  clause := child.1.expression

/-- An only child is never read as the level itself. -/
theorem isBare_mark (style : Style) (occur : Occur) : (style.mark true occur).isBare = false := by
  rw [Style.mark, Style.joined]
  cases occur with
  | must => exact Bool.and_false _
  | mustNot => exact Bool.and_false _
  | should => cases style.joins .should <;> rfl

/-- The children of a combination are read as that combination. -/
theorem levelOf_children (style : Style) (children : List (Source × Occur)) :
    levelOf .or (children.map (item style (children.length = 1))) =
      .boolean (expressionsOfChildren children) := by
  have hlevel : levelOf .or (children.map (item style (children.length = 1))) =
      .boolean (children.map fun c =>
        (c.1.expression, (style.mark (children.length = 1) c.2).occur .or)) := by
    refine levelOf_map .or (fun c : Source × Occur => style.mark (children.length = 1) c.2)
      (fun c => c.1.expression) ?_ fun c _ o => style.revise_mark _ c.2 o
    rintro c rfl
    exact isBare_mark style c.2
  rw [hlevel, expressionsOfChildren_eq_map]
  simp only [Style.occur_mark]

section

variable {d : Dialect} (hop : d.operator = .or) (style : Style)

include hop

/-- Children that are read back are read back as their combination. -/
theorem spellsStart_boolean {children : List (Source × Occur)} {levels : Nat} (field : String)
    (h : ∀ c ∈ children, SpellsClause d levels field (c.1.text style) c.1.expression) :
    SpellsStart d (levels + 1) field ((Source.boolean children).text style)
      (Source.boolean children).expression := by
  have hitems : List.Forall₂ (SpellsItem (readPrimary Expression.builder d levels) field)
      (textsOfChildren style (children.length = 1) children)
      (children.map (item style (children.length = 1))) := by
    rw [textsOfChildren_eq_map, List.forall₂_map_left_iff, List.forall₂_map_right_iff,
      List.forall₂_same]
    exact fun c hc => (h c hc).spellsItem _ _
  have hlevel := spellsStart_level hitems
  rw [hop, levelOf_children] at hlevel
  exact hlevel

/-- The text of a query is read back where it has the levels it opens; unless the query is boosted,
a boost may follow. -/
theorem spells_text (source : Source) {levels : Nat} (field : String)
    (h : source.levels style ≤ levels) :
    (source.isBoosted = false →
      SpellsStart d levels field (source.text style) source.expression) ∧
    SpellsClause d levels field (source.text style) source.expression := by
  induction source generalizing levels field with
  | leaf name l =>
    obtain ⟨n, rfl⟩ := Nat.exists_eq_add_of_le' h
    have hstart : SpellsStart d (n + 1) field (escaped name ++ ':' :: l.text)
        (l.expression name) :=
      .named field name l.lacksValue_text (l.readPrimary_text d n name)
    exact ⟨fun _ => hstart, hstart.spellsClause⟩
  | phrase p =>
    obtain ⟨n, rfl⟩ := Nat.exists_eq_add_of_le' h
    have hstart := spellsStart_phrase d n field p.field p.paired p.slop
    exact ⟨fun _ => hstart, hstart.spellsClause⟩
  | boolean children ih =>
    rw [Source.levels] at h
    obtain ⟨n, rfl⟩ := Nat.exists_eq_add_of_le' (Nat.le_of_add_left_le h)
    have hchildren := levelsOfChildren_le_iff.mp (Nat.le_of_succ_le_succ h)
    have hstart := spellsStart_boolean hop style field fun c hc =>
      (ih c hc field (hchildren c hc)).2
    exact ⟨fun _ => hstart, hstart.spellsClause⟩
  | boosted source factor ih =>
    refine ⟨nofun, ?_⟩
    rw [Source.levels] at h
    rw [text]
    split
    next hwraps =>
      rw [if_pos hwraps] at h
      obtain ⟨n, rfl⟩ := Nat.exists_eq_add_of_le' (Nat.le_of_add_left_le h)
      have hsource := (ih field (Nat.le_of_succ_le_succ h)).2
      exact hsource.group.boost factor.isNumeral_of_mem factor.value_eq
    next hwraps =>
      rw [if_neg hwraps] at h
      have hplain : source.isBoosted = false := by
        rw [Bool.not_eq_true, Bool.or_eq_false_iff] at hwraps
        exact hwraps.2
      exact ((ih field h).1 hplain).boost factor.isNumeral_of_mem factor.value_eq

/-- A text that opens more levels than are left is refused for that. -/
theorem nestsTooDeep_text (source : Source) {levels : Nat} (field : String)
    (h : levels < source.levels style) : NestsTooDeep d levels field (source.text style) := by
  induction source generalizing levels field with
  | leaf name l =>
    obtain rfl : levels = 0 := Nat.lt_one_iff.mp h
    exact nestsTooDeep_named d field name l.lacksValue_text
  | phrase p =>
    obtain rfl : levels = 0 := Nat.lt_one_iff.mp h
    exact nestsTooDeep_named d field p.field rfl
  | boolean children ih =>
    cases levels with
    | zero => exact nestsTooDeep_group d field _
    | succ n =>
      rw [Source.levels] at h
      have hdeep : ¬ levelsOfChildren style children ≤ n := by omega
      rw [levelsOfChildren_le_iff] at hdeep
      push Not at hdeep
      obtain ⟨c, hc, hlt⟩ := hdeep
      have hrefused : ∀ child ∈ children, n < child.1.levels style →
          RefusesItem (readPrimary Expression.builder d n) field
            (joinText (style.joined (children.length = 1) child.2) ++ signText child.2.modifier ++
              child.1.text style) :=
        fun child hmem hchild => (ih child hmem field hchild).refusesItem _ _
      rw [text, textsOfChildren_eq_map]
      refine nestsTooDeep_level (fun t ht => ?_) ⟨_, List.mem_map_of_mem hc, hrefused c hc hlt⟩
      obtain ⟨child, hmem, rfl⟩ := List.mem_map.mp ht
      rcases Nat.lt_or_ge n (child.1.levels style) with hchild | hchild
      · exact .inl (hrefused child hmem hchild)
      · exact .inr ⟨_, (spells_text hop style child.1 field hchild).2.spellsItem _ _⟩
  | boosted source factor ih =>
    rw [Source.levels] at h
    rw [text]
    split
    next hwraps =>
      rw [if_pos hwraps] at h
      cases levels with
      | zero => exact (nestsTooDeep_group d field _).append _
      | succ n => exact (ih field (Nat.lt_of_succ_lt_succ h)).group.append _
    next hwraps =>
      rw [if_neg hwraps] at h
      exact (ih field h).append _

end

end Source

/-- Printing a query and capturing its text is the identity. Where clauses without a sign are
optional, the text of every query, in every style, is captured as that query with its phrases
numbered from left to right, if it opens no more nesting levels than there are. A text that opens
more is refused for its nesting. -/
theorem capture_text (p : Parser) (hop : p.config.defaultOperator = .or) (style : Style)
    {source : Source} (hboosts : source.boostsNoLeaf = true) :
    (source.levels style ≤ nestingLimit →
      p.capture (String.ofList (source.text style)) =
        .ok (source.query 0, ⟨source.phrases.map (WrittenPhrase.anchor p.config.inOrder)⟩)) ∧
    (nestingLimit < source.levels style →
      ∃ m, p.capture (String.ofList (source.text style)) = .error (.malformed m) ∧
        m.cause.isNesting = true) := by
  constructor
  · intro hlevels
    have hclause := (Source.spells_text (d := p.config.dialect) hop style source
      p.config.defaultField hlevels).2
    have hquery := source.query_expression hboosts 0
    have hanchors := source.anchors_expression p.config.inOrder
    refine p.capture_eq_ok_iff.mpr ⟨source.expression, hclause.ofText?, hquery.symm, ?_⟩
    rw [hanchors]
  · intro hlevels
    have hdeep := Source.nestsTooDeep_text (d := p.config.dialect) hop style source
      p.config.defaultField hlevels
    obtain ⟨m, hm, hcause⟩ := hdeep.ofText?
    refine ⟨m, ?_, hcause⟩
    rw [Parser.capture, capture_eq, hm]

/-- A boosted phrase, a prohibited pattern and an optional range, written without an `OR`, and one
group more than there are levels. -/
theorem capture_text_of_boosted_phrase :
    let field : Word := ⟨"f", by decide⟩
    let style : Style := { joins := fun _ => false, wraps := false }
    let phrase : WrittenPhrase :=
      { field, raw := ['a', '\\', '"'], paired := .plain rfl (.escaped .nil), slop := 2 }
    let factor : Literal :=
      { digits := ['1', '.', '5'], value := Float32.ofScientific 15 true 1, value_eq := rfl }
    let pattern : Pattern :=
      { letters := [.plain 'a', .escaped '*', .plain '?'], readable := by decide, wild := rfl }
    let interval : Interval :=
      { lower := some "a b", upper := none, includesLower := true, includesUpper := false }
    let range : Leaf :=
      .range interval
        (fun text h => by obtain rfl := Option.some.inj h; exact ⟨by decide, by decide, by decide⟩)
        nofun
    let source : Source :=
      .boolean [(.boosted (.phrase phrase) factor, .must),
        (.leaf field (.wildcard pattern), .mustNot), (.leaf field range, .should)]
    let deep : Source := Nat.repeat (fun s => .boolean [(s, .should)]) 128 source
    String.ofList (source.text style) =
        "(+\\f:\"a\\\"\"~2^1.5 -\\f:a\\*? \\f:[\"a b\" TO *\x7d)" ∧
      ({} : Parser).capture (String.ofList (source.text style)) =
        .ok (.boolean [(.boosted (.phrase 0) (Float32.ofScientific 15 true 1), .must),
            (.multiTerm "f" (.wildcard "a\\*?") 1, .mustNot),
            (.multiTerm "f" (.range interval) 1, .should)],
          ⟨[{ field := "f", rawText := "a\\\"", slop := 2, inOrder := true }]⟩) ∧
      ∃ m, ({} : Parser).capture (String.ofList (deep.text style)) = .error (.malformed m) ∧
        m.cause.isNesting = true := by
  intro field style phrase factor pattern interval range source deep
  exact ⟨by decide, (capture_text {} rfl style rfl).1 (by decide),
    (capture_text {} rfl style (by decide +kernel)).2 (by decide +kernel)⟩

end ProximityQuery
