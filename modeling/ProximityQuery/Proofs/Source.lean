import ProximityQuery.Proofs.Capture
import ProximityQuery.Proofs.SpelledLevel

/-!
# Written queries

The queries that the first reading of a text can give, each together with what its text has to
keep of it: how a pattern, a raw phrase and the number of a boost are written. A written query has a
text, the query that this text stands for, its phrases from left to right and the number of nesting
levels that the text opens.
-/

namespace ProximityQuery

open Grammar

/-- A pattern as it is written. -/
structure Pattern where
  letters : List Letter
  /-- No plain letter is a blank, a backslash or a special character. -/
  readable : ∀ l ∈ letters, l.isReadable = true
  /-- Some star or question mark is not escaped. -/
  wild : letters.any Letter.isWild = true

namespace Pattern

/-- The characters of the pattern, its escapes kept. -/
def written (p : Pattern) : List Char :=
  p.letters.flatMap Letter.written

/-- The construct that the pattern is. -/
def multiTerm (p : Pattern) : MultiTerm :=
  .wildcard (String.ofList p.written)

end Pattern

/-- A decimal literal with the single-precision number that it is read as. -/
structure Literal where
  digits : List Char
  value : Float32
  value_eq : Decimal.float32? digits = some value

/-- A phrase as it is written: its field, what stands between the quotes, and the slop. -/
structure WrittenPhrase where
  field : Word
  raw : List Char
  paired : Paired raw
  slop : UInt32

namespace WrittenPhrase

/-- The text `field:"raw"~slop`. -/
def text (p : WrittenPhrase) : List Char :=
  escaped p.field ++ ':' :: '"' :: (p.raw ++ '"' :: '~' :: numeral p.slop)

/-- The phrase as an anchor that is not resolved yet. -/
def anchor (inOrder : Bool) (p : WrittenPhrase) : Anchor where
  field := p.field
  rawText := String.ofList p.raw
  slop := p.slop
  inOrder := inOrder

/-- The construct that the phrase is. -/
def expression (p : WrittenPhrase) : Expression :=
  .phrase p.field (String.ofList p.raw) p.slop

end WrittenPhrase

/-- What can be written after a field, other than a phrase. -/
inductive Leaf
  | term (text : Word)
  | wildcard (pattern : Pattern)
  | fuzzy (text : Word) (edits : UInt32)
  | range (interval : Interval) (lower : ∀ text ∈ interval.lower, IsBound text)
    (upper : ∀ text ∈ interval.upper, IsBound text)

namespace Leaf

/-- The leaf as it is written after its field. -/
def text : Leaf → List Char
  | .term text => escaped text
  | .wildcard pattern => pattern.written
  | .fuzzy text edits => escaped text ++ '~' :: numeral edits
  | .range interval _ _ =>
    openBracket interval.includesLower ::
      (intervalText interval ++ [closeBracket interval.includesUpper])

/-- The query of the leaf about a field, with a boost of one. -/
def query (field : String) : Leaf → Query
  | .term text => .term { field, text }
  | .wildcard pattern => .multiTerm field pattern.multiTerm 1
  | .fuzzy text edits => .multiTerm field (.fuzzy text edits) 1
  | .range interval _ _ => .multiTerm field (.range interval) 1

/-- The construct that the leaf is. -/
def expression (field : String) : Leaf → Expression
  | .term text => .term field text
  | .wildcard pattern => .multiTerm field pattern.multiTerm
  | .fuzzy text edits => .multiTerm field (.fuzzy text edits)
  | .range interval _ _ => .multiTerm field (.range interval)

end Leaf

/-- A query that can be written. -/
inductive Source
  | leaf (field : Word) (leaf : Leaf)
  | phrase (phrase : WrittenPhrase)
  | boolean (children : List (Source × Occur))
  | boosted (source : Source) (factor : Literal)

/-- The choices that the text of a query leaves. -/
structure Style where
  /-- Whether an `OR` stands before a clause that plays this part. An only clause that is optional
  always has one, since it would not be a combination otherwise. -/
  joins : Occur → Bool
  /-- Whether the clause before a boost is in parentheses even where it can do without. -/
  wraps : Bool

/-- Whether an `OR` stands before a clause, alone in its level or not. -/
def Style.joined (style : Style) (alone : Bool) (occur : Occur) : Bool :=
  style.joins occur || alone && occur = .should

/-- The sign of a clause by its part. -/
def Occur.modifier : Occur → Option Modifier
  | .must => some .required
  | .mustNot => some .prohibited
  | .should => none

namespace Source

/-- Induction over written queries, with one hypothesis for every child. -/
@[elab_as_elim, induction_eliminator]
theorem ind {motive : Source → Prop} (leaf : ∀ field leaf, motive (.leaf field leaf))
    (phrase : ∀ phrase, motive (.phrase phrase))
    (boolean : ∀ children, (∀ c ∈ children, motive c.1) → motive (.boolean children))
    (boosted : ∀ source factor, motive source → motive (.boosted source factor))
    (source : Source) : motive source :=
  match source with
  | .leaf field l => leaf field l
  | .phrase p => phrase p
  | .boolean children => boolean children fun c _ => ind leaf phrase boolean boosted c.1
  | .boosted source factor => boosted source factor (ind leaf phrase boolean boosted source)
termination_by sizeOf source
decreasing_by
  · have hlt := sizeOf_clause_lt ‹c ∈ children›
    simp only [Source.boolean.sizeOf_spec]
    omega
  · simp only [Source.boosted.sizeOf_spec]
    omega

/-- Whether a query is a leaf other than a phrase. -/
def isLeaf : Source → Bool
  | .leaf _ _ => true
  | .phrase _ | .boolean _ | .boosted _ _ => false

/-- Whether a query is boosted. -/
def isBoosted : Source → Bool
  | .boosted _ _ => true
  | .leaf _ _ | .phrase _ | .boolean _ => false

mutual

/-- Whether only phrases, combinations and boosted queries are boosted. -/
def boostsNoLeaf : Source → Bool
  | .leaf _ _ | .phrase _ => true
  | .boolean children => childrenBoostNoLeaf children
  | .boosted source _ => !source.isLeaf && source.boostsNoLeaf

/-- The same of every child. -/
def childrenBoostNoLeaf : List (Source × Occur) → Bool
  | [] => true
  | (child, _) :: rest => child.boostsNoLeaf && childrenBoostNoLeaf rest

end

mutual

/-- The text of a query. -/
def text (style : Style) : Source → List Char
  | .leaf field l => escaped field ++ ':' :: l.text
  | .phrase p => p.text
  | .boolean children =>
    '(' :: ([' '].intercalate (textsOfChildren style (children.length = 1) children) ++ [')'])
  | .boosted source factor =>
    if style.wraps || source.isBoosted then
      '(' :: (source.text style ++ [')']) ++ '^' :: factor.digits
    else source.text style ++ '^' :: factor.digits

/-- The texts of the children of a combination, each with what stands before it. -/
def textsOfChildren (style : Style) (alone : Bool) : List (Source × Occur) → List (List Char)
  | [] => []
  | (child, occur) :: rest =>
    (joinText (style.joined alone occur) ++ signText occur.modifier ++ child.text style) ::
      textsOfChildren style alone rest

end

mutual

/-- The number of nesting levels that the text of a query opens within one another. -/
def levels (style : Style) : Source → Nat
  | .leaf _ _ | .phrase _ => 1
  | .boolean children => levelsOfChildren style children + 1
  | .boosted source _ =>
    if style.wraps || source.isBoosted then source.levels style + 1 else source.levels style

/-- The number of nesting levels that the texts of some children open within one another. -/
def levelsOfChildren (style : Style) : List (Source × Occur) → Nat
  | [] => 0
  | (child, _) :: rest => max (child.levels style) (levelsOfChildren style rest)

end

mutual

/-- The phrases in a query, from left to right. -/
def phrases : Source → List WrittenPhrase
  | .leaf _ _ => []
  | .phrase p => [p]
  | .boolean children => phrasesOfChildren children
  | .boosted source _ => source.phrases

/-- The phrases in some children, from left to right. -/
def phrasesOfChildren : List (Source × Occur) → List WrittenPhrase
  | [] => []
  | (child, _) :: rest => child.phrases ++ phrasesOfChildren rest

end

mutual

/-- The query that the text stands for, its phrases numbered from `first` on. -/
def query (first : Nat) : Source → Query
  | .leaf field l => l.query field
  | .phrase _ => .phrase first
  | .boolean children => .boolean (queriesOfChildren first children)
  | .boosted source factor => .boosted (source.query first) factor.value

/-- The queries of some children, their phrases numbered from `first` on. -/
def queriesOfChildren (first : Nat) : List (Source × Occur) → List (Query × Occur)
  | [] => []
  | (child, occur) :: rest =>
    (child.query first, occur) :: queriesOfChildren (first + child.phrases.length) rest

end

mutual

/-- The expression that the text is read as. -/
def expression : Source → Expression
  | .leaf field l => l.expression field
  | .phrase p => p.expression
  | .boolean children => .boolean (expressionsOfChildren children)
  | .boosted source factor => .boost source.expression factor.value

/-- The expressions of some children. -/
def expressionsOfChildren : List (Source × Occur) → List (Expression × Occur)
  | [] => []
  | (child, occur) :: rest => (child.expression, occur) :: expressionsOfChildren rest

end

theorem childrenBoostNoLeaf_eq_all (children : List (Source × Occur)) :
    childrenBoostNoLeaf children = children.all fun c => c.1.boostsNoLeaf := by
  induction children with
  | nil => rfl
  | cons c rest ih => rw [childrenBoostNoLeaf, ih, List.all_cons]

/-- A child is written behind the mark that its occur calls for. -/
theorem textsOfChildren_eq_map (style : Style) (alone : Bool) (children : List (Source × Occur)) :
    textsOfChildren style alone children = children.map fun c =>
      joinText (style.joined alone c.2) ++ signText c.2.modifier ++ c.1.text style := by
  induction children with
  | nil => rfl
  | cons c rest ih => rw [textsOfChildren, ih, List.map_cons]

theorem expressionsOfChildren_eq_map (children : List (Source × Occur)) :
    expressionsOfChildren children = children.map fun c => (c.1.expression, c.2) := by
  induction children with
  | nil => rfl
  | cons c rest ih => rw [expressionsOfChildren, ih, List.map_cons]

theorem phrasesOfChildren_eq_flatMap (children : List (Source × Occur)) :
    phrasesOfChildren children = children.flatMap fun c => c.1.phrases := by
  induction children with
  | nil => rfl
  | cons c rest ih => rw [phrasesOfChildren, ih, List.flatMap_cons]

/-- Every child fits into the levels that its combination has below it. -/
theorem levelsOfChildren_le_iff {style : Style} {children : List (Source × Occur)} {n : Nat} :
    levelsOfChildren style children ≤ n ↔ ∀ c ∈ children, c.1.levels style ≤ n := by
  induction children with
  | nil => simp [levelsOfChildren]
  | cons c rest ih =>
    rw [levelsOfChildren, Nat.max_le, ih, List.forall_mem_cons]

/-- The anchors of the expression are those of the phrases, in the same order. -/
theorem anchors_expression (inOrder : Bool) (source : Source) :
    source.expression.anchors inOrder = source.phrases.map (WrittenPhrase.anchor inOrder) := by
  induction source with
  | leaf field l => cases l <;> rfl
  | phrase p => rfl
  | boolean children ih =>
    have hchildren : (children.flatMap fun c => c.1.expression.calls).filterMap
        (Expression.anchor? inOrder) =
        children.flatMap fun c => c.1.phrases.map (WrittenPhrase.anchor inOrder) := by
      rw [List.filterMap_flatMap]
      exact List.flatMap_congr ih
    simp only [expression, expressionsOfChildren_eq_map, Expression.anchors, Expression.calls,
      Expression.callsOfClauses_eq_flatMap, List.flatMap_map, List.filterMap_append, hchildren,
      phrases, phrasesOfChildren_eq_flatMap, List.map_flatMap]
    exact List.append_nil _
  | boosted source factor ih =>
    simp only [expression, Expression.anchors, Expression.calls, List.filterMap_append, phrases,
      ← ih]
    exact List.append_nil _

/-- The expression of a source has as many phrases as the source. -/
theorem phraseCount_expression (source : Source) :
    source.expression.phraseCount = source.phrases.length := by
  have hanchors := congrArg List.length (source.anchors_expression true)
  rw [Expression.anchors, Expression.length_filterMap_anchor?, List.length_map] at hanchors
  exact hanchors

/-- Captured, the expression is the query, since no boost stands right after a leaf. -/
theorem query_expression {source : Source} (h : source.boostsNoLeaf = true) (first : Nat) :
    source.expression.query first = source.query first := by
  induction source generalizing first with
  | leaf field l => cases l <;> rfl
  | phrase p => rfl
  | boolean children ih =>
    rw [boostsNoLeaf, childrenBoostNoLeaf_eq_all, List.all_eq_true] at h
    have hchildren : ∀ first, Expression.queriesOfClauses first (expressionsOfChildren children) =
        queriesOfChildren first children := by
      induction children with
      | nil => exact fun _ => rfl
      | cons c rest ihrest =>
        intro first
        have hc := ih c List.mem_cons_self (h c List.mem_cons_self) first
        have hrest := ihrest (fun c hmem => ih c (List.mem_cons_of_mem _ hmem))
          (fun c hmem => h c (List.mem_cons_of_mem _ hmem)) (first + c.1.phrases.length)
        rw [expressionsOfChildren, Expression.queriesOfClauses, hc, phraseCount_expression, hrest,
          queriesOfChildren]
    rw [expression, Expression.query, hchildren, query]
  | boosted source factor ih =>
    rw [boostsNoLeaf, Bool.and_eq_true, Bool.not_eq_true'] at h
    rw [expression, Expression.query, ih h.2, query]
    cases source with
    | leaf field l => cases h.1
    | phrase p => rfl
    | boolean children => rfl
    | boosted source factor => rfl

end Source

end ProximityQuery
