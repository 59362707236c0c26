import ProximityQuery.Proofs.Capture
import ProximityQuery.Proofs.ContinuedLevel

/-!
# Operators with nothing behind them

An operator at the end of a query has no clause to stand before, so the query is malformed. The
doubled signs are refused at the end of a group as well. The words are not: no keyword may end
before a closing parenthesis, and there `AND`, `OR` and `NOT` are terms like any other word.
-/

namespace ProximityQuery

open Grammar

/-- An operator as it is written before a clause. -/
inductive OperatorText
  | andWord
  | orWord
  | notWord
  | andSign
  | orSign
deriving DecidableEq, Repr

namespace OperatorText

/-- The characters of an operator. -/
def chars : OperatorText → List Char
  | .andWord => ['A', 'N', 'D']
  | .orWord => ['O', 'R']
  | .notWord => ['N', 'O', 'T']
  | .andSign => ['&', '&']
  | .orSign => ['|', '|']

/-- An operator as a text. -/
def text (k : OperatorText) : String :=
  String.ofList k.chars

/-- Whether an operator is written in letters. -/
def isWord : OperatorText → Bool
  | .andWord | .orWord | .notWord => true
  | .andSign | .orSign => false

/-- What is missing behind an operator at the end: a conjunction looks for a clause, while a `NOT` is
taken and the start of its clause is looked for. -/
def missing : OperatorText → Malformation
  | .notWord => .missingTerm
  | .andWord | .orWord | .andSign | .orSign => .missingClause

/-- The clause that a word is where it is no operator. -/
def asTerm (field : String) (k : OperatorText) : Item Expression where
  mark := { conjunction := none, modifier := none }
  clause := .term field k.text

end OperatorText

section

variable (d : Dialect) (levels : Nat) (field : String) (bound : Nat) (k : OperatorText)

/-- An operator at the end of a text is refused there. -/
theorem readItems_operator_at_end :
    readItems Expression.builder (readPrimary Expression.builder d levels) field (bound + 1)
      (' ' :: k.chars) = throw { cause := k.missing, unread := [] } := by
  obtain ⟨below, hbelow⟩ := exists_readStart d levels
  rw [hbelow]
  cases k <;> rfl

variable {k}

/-- A sign at the end of a group is refused before the parenthesis. -/
theorem readItems_sign_before_close (hk : k.isWord = false) (rest : List Char) :
    readItems Expression.builder (readPrimary Expression.builder d levels) field (bound + 1)
      (' ' :: (k.chars ++ ')' :: rest)) =
        throw { cause := .missingClause, unread := ')' :: rest } := by
  cases k with
  | andWord => cases hk
  | orWord => cases hk
  | notWord => cases hk
  | andSign => rfl
  | orSign => rfl

/-- Where no conjunction and no sign is looked for, an operator is a term. -/
theorem readPrimary_operator (k : OperatorText) {rest : List Char} (hrest : EndsStart rest) :
    readPrimary Expression.builder d levels field (k.chars ++ rest) =
      pure (.term field k.text, rest) := by
  have hwritten : (k.chars.map Letter.plain).flatMap Letter.written = k.chars := by
    cases k <;> rfl
  have hmeant : (k.chars.map Letter.plain).map Letter.char = k.chars := by
    cases k <;> rfl
  have hne : k.chars.map Letter.plain ≠ [] := by
    cases k <;> exact List.cons_ne_nil _ _
  have hreadable : ∀ l ∈ k.chars.map Letter.plain, l.isReadable = true := by
    rw [← List.all_eq_true]
    cases k <;> rfl
  have hwild : (k.chars.map Letter.plain).any Letter.isWild = false := by
    cases k <;> rfl
  obtain ⟨below, hbelow⟩ := exists_readStart d levels
  have hstart := readStart_written d below field hne hreadable rest
  have hterm := readWordClause_term d below field hne hreadable hwild hrest
  rw [hwritten] at hstart
  rw [hwritten, hmeant] at hterm
  rw [hbelow, hstart, hterm]
  rfl

/-- Before a closing parenthesis a word is neither a conjunction nor a sign. -/
theorem readItem_word_before_close (primary : Primary Id Expression) (hk : k.isWord = true)
    (rest : List Char) :
    readItem Expression.builder primary field (k.chars ++ ')' :: rest) =
      primary field (k.chars ++ ')' :: rest) >>= fun p =>
        readBoost Expression.builder p.1 p.2 >>= fun q =>
          pure ({ mark := { conjunction := none, modifier := none }, clause := q.1 }, q.2) := by
  cases k with
  | andWord => rfl
  | orWord => rfl
  | notWord => rfl
  | andSign => cases hk
  | orSign => cases hk

/-- A word at the end of a group is a term. -/
theorem readItems_word_before_close (hk : k.isWord = true) (rest : List Char) :
    readItems Expression.builder (readPrimary Expression.builder d levels) field (bound + 1)
      (' ' :: (k.chars ++ ')' :: rest)) = pure ([k.asTerm field], ')' :: rest) := by
  have hstarts : StartsItem k.chars := by
    cases k with
    | andWord => exact ⟨'A', ['N', 'D'], rfl, by decide⟩
    | orWord => exact ⟨'O', ['R'], rfl, by decide⟩
    | notWord => exact ⟨'N', ['O', 'T'], rfl, by decide⟩
    | andSign => cases hk
    | orSign => cases hk
  have hclose := endsClause_close rest
  rw [readItems_cons hstarts, readItem_word_before_close field _ hk,
    readPrimary_operator d levels field k hclose.endsStart, pure_bind,
    readBoost_of_endsClause _ hclose, pure_bind, pure_bind, readItems_close, pure_bind]
  rfl

end

/-- A text whose level is refused is malformed where it is refused. -/
theorem Expression.ofText?_eq_error {d : Dialect} {field text : String} {f : Failure}
    (h : readLevel builder d.operator (readPrimary builder d nestingLimit) field text.toList =
      throw f) : ofText? d field text = .error (f.located text.toList) := by
  rw [ofText?_eq_mapError, readWhole, h]
  rfl

/-- A group is refused where the level in it is. -/
theorem readLevel_group_eq_throw {d : Dialect} {levels : Nat} {field : String}
    {inside : List Char} {f : Failure}
    (h : readLevel Expression.builder d.operator (readPrimary Expression.builder d levels) field
      inside = throw f) :
    readLevel Expression.builder d.operator (readPrimary Expression.builder d (levels + 1)) field
      ('(' :: inside) = throw f := by
  have hprimary : readPrimary Expression.builder d (levels + 1) field ('(' :: inside) = throw f := by
    have hgroup : readGroup Expression.builder d.operator
        (some (readPrimary Expression.builder d levels)) field ('(' :: inside) inside =
        throw f := by
      rw [readGroup, h]
      rfl
    exact hgroup
  have hitem : readItem Expression.builder (readPrimary Expression.builder d (levels + 1)) field
      ('(' :: inside) = throw f := by
    have hmarked := readItem_marked (readPrimary Expression.builder d (levels + 1)) field false none
      (s := '(' :: inside) rfl
    rw [hprimary] at hmarked
    exact hmarked
  have hitems : readItems Expression.builder (readPrimary Expression.builder d (levels + 1)) field
      (inside.length + 1) ('(' :: inside) = throw f := by
    have hskip : skipBlanks ('(' :: inside) = '(' :: inside := rfl
    have hopen : ¬ endsLevel ('(' :: inside) = true := Bool.false_ne_true
    rw [readItems, hskip, if_neg hopen, hitem]
    rfl
  rw [readLevel_builder, List.length_cons, hitems]
  rfl

namespace SpellsLevel

variable {d : Dialect} {levels : Nat} {field : String} {s : List Char}
  {items : List (Item Expression)} (h : SpellsLevel d levels field s items) (hs : EscapesClosed s)

include h hs

/-- A refusal of what is behind a level is a refusal of the whole. -/
theorem readLevel_eq_throw {tail : List Char} {f : Failure} (htail : EndsClause tail)
    (hne : tail ≠ [])
    (hrefused : ∀ bound, readItems Expression.builder (readPrimary Expression.builder d levels)
      field (bound + 1) tail = throw f) :
    readLevel Expression.builder d.operator (readPrimary Expression.builder d levels) field
      (s ++ tail) = throw f := by
  obtain ⟨bound, hbound, hread⟩ := h.readItems_append_tail hs 0 htail
  obtain ⟨more, rfl⟩ : ∃ more, bound = more + 1 :=
    Nat.exists_eq_add_one.mpr ((List.length_pos_of_ne_nil hne).trans_le hbound)
  rw [Nat.add_zero, hrefused more] at hread
  rw [readLevel_builder, hread]
  rfl

/-- In a group a word behind a level is one more term of it. -/
theorem group_word {k : OperatorText} (hk : k.isWord = true) :
    SpellsStart d (levels + 1) field ('(' :: (s ++ ' ' :: k.chars ++ [')']))
      (levelOf d.operator (items ++ [k.asTerm field])) := by
  refine spellsStart_group fun rest => ?_
  have hblank := endsClause_blank (k.chars ++ ')' :: rest)
  obtain ⟨bound, hbound, hread⟩ := h.readItems_append_tail hs 0 hblank
  obtain ⟨more, rfl⟩ : ∃ more, bound = more + 1 :=
    Nat.exists_eq_add_one.mpr ((Nat.succ_pos _).trans_le hbound)
  have hword := readItems_word_before_close d levels field more hk rest
  have hshape : s ++ ' ' :: k.chars ++ ')' :: rest = s ++ ' ' :: (k.chars ++ ')' :: rest) := by
    simp
  rw [Nat.add_zero, hword, pure_bind] at hread
  rw [hshape, readLevel_builder, hread, pure_bind]

end SpellsLevel

section

variable {d : Dialect} {field q : String} {items : List (Item Expression)}

/-- Every operator is refused at the end of a text. -/
theorem ofText?_operator_at_end (hq : SpellsLevel d nestingLimit field q.toList items)
    (hs : EscapesClosed q.toList) (k : OperatorText) :
    Expression.ofText? d field (q ++ " " ++ k.text) =
      .error { position := utf8Length (q ++ " " ++ k.text).toList, cause := k.missing } := by
  have htext : (q ++ " " ++ k.text).toList = q.toList ++ ' ' :: k.chars := by
    simp [OperatorText.text]
  have hlevel := hq.readLevel_eq_throw hs (endsClause_blank k.chars) (List.cons_ne_nil _ _)
    fun bound => readItems_operator_at_end d nestingLimit field bound k
  rw [← htext] at hlevel
  have hat := Failure.position_append { cause := k.missing, unread := [] }
    (q ++ " " ++ k.text).toList
  rw [List.append_nil] at hat
  rw [Expression.ofText?_eq_error hlevel, Failure.located, hat]

variable (hq : SpellsLevel d 127 field q.toList items) (hs : EscapesClosed q.toList)
  {k : OperatorText}

include hq hs

/-- A sign is refused at the end of a group. -/
theorem ofText?_sign_before_close (hk : k.isWord = false) :
    Expression.ofText? d field ("(" ++ q ++ " " ++ k.text ++ ")") =
      .error { position := utf8Length ("(" ++ q ++ " " ++ k.text).toList
               cause := .missingClause } := by
  have hsplit : ("(" ++ q ++ " " ++ k.text).toList ++ [')'] =
      ("(" ++ q ++ " " ++ k.text ++ ")").toList := by
    simp
  have htext : ("(" ++ q ++ " " ++ k.text ++ ")").toList =
      '(' :: (q.toList ++ ' ' :: (k.chars ++ [')'])) := by
    simp [OperatorText.text]
  -- the group takes one of the levels, so its inside is read with one less
  have hinside := hq.readLevel_eq_throw hs (endsClause_blank (k.chars ++ [')']))
    (List.cons_ne_nil _ _) fun bound => readItems_sign_before_close d 127 field bound hk []
  have hlevel := readLevel_group_eq_throw hinside
  rw [← htext] at hlevel
  have hat := Failure.position_append { cause := .missingClause, unread := [')'] }
    ("(" ++ q ++ " " ++ k.text).toList
  rw [hsplit] at hat
  rw [Expression.ofText?_eq_error hlevel, Failure.located, hat]

/-- A word is one more term at the end of a group. -/
theorem ofText?_word_before_close (hk : k.isWord = true) :
    Expression.ofText? d field ("(" ++ q ++ " " ++ k.text ++ ")") =
      .ok (levelOf d.operator (items ++ [k.asTerm field])) := by
  have htext : ("(" ++ q ++ " " ++ k.text ++ ")").toList =
      '(' :: (q.toList ++ ' ' :: k.chars ++ [')']) := by
    simp [OperatorText.text]
  have hread := (hq.group_word hs hk).spellsClause.ofText?
  rw [← htext, String.ofList_toList] at hread
  exact hread

end

namespace Parser

variable (p : Parser)

/-- A malformed text is not captured. -/
theorem capture_eq_malformed {text : String} {m : Malformed}
    (h : Expression.ofText? p.config.dialect p.config.defaultField text = .error m) :
    p.capture text = .error (.malformed m) := by
  rw [capture, capture_eq, h]

/-- A query that needs no more than 127 nesting levels and leaves no escape open, with a blank and an
operator behind it. At the end of the text every operator is refused, and at the end of a group the
signs are; the words are read there as one more term of the query. -/
theorem capture_operator_behind {q : String} {items : List (Item Expression)}
    (hq : SpellsLevel p.config.dialect 127 p.config.defaultField q.toList items)
    (hs : EscapesClosed q.toList) (k : OperatorText) :
    Expression.ofText? p.config.dialect p.config.defaultField q =
      .ok (levelOf p.config.defaultOperator items) ∧
    p.capture (q ++ " " ++ k.text) = .error (.malformed
      { position := utf8Length (q ++ " " ++ k.text).toList, cause := k.missing }) ∧
    (k.isWord = false →
      p.capture ("(" ++ q ++ " " ++ k.text ++ ")") = .error (.malformed
        { position := utf8Length ("(" ++ q ++ " " ++ k.text).toList, cause := .missingClause })) ∧
    (k.isWord = true →
      Expression.ofText? p.config.dialect p.config.defaultField
          ("(" ++ q ++ " " ++ k.text ++ ")") =
        .ok (levelOf p.config.defaultOperator (items ++ [k.asTerm p.config.defaultField]))) := by
  have hall := hq.add_levels hs 1
  exact ⟨Expression.ofText?_eq_ok_iff_spellsLevel.mpr ⟨items, hall, rfl⟩,
    capture_eq_malformed p (ofText?_operator_at_end hall hs k),
    fun hk => capture_eq_malformed p (ofText?_sign_before_close hq hs hk),
    fun hk => ofText?_word_before_close hq hs hk⟩

/-- `AND` is refused behind `a` and is a term behind it in a group. -/
theorem capture_operator_behind_word :
    capture {} "a AND" = .error (.malformed { position := 5, cause := .missingClause }) ∧
      Expression.ofText? {} "body" "(a AND)" =
        .ok (.boolean [(.term "body" "a", .should), (.term "body" "AND", .should)]) := by
  have hq : SpellsLevel {} 127 "body" "a".toList [⟨⟨none, none⟩, .term "body" "a"⟩] := by
    cbv
  obtain ⟨-, hend, -, hgroup⟩ := capture_operator_behind {} hq (by decide) .andWord
  exact ⟨hend, hgroup rfl⟩

/-- At the end of a group `AND` is read as a term and captured. -/
theorem capture_word_before_close :
    capture {} "(a AND)" = .ok (.boolean [(.term { field := "body", text := "a" }, .should),
      (.term { field := "body", text := "AND" }, .should)], {}) := by
  cbv

end Parser

end ProximityQuery
