import ProximityQuery.Proofs.RegularExpressions
import ProximityQuery.Wildcard

/-!
# What a wildcard pattern matches

A pattern matches a text when the text falls into pieces, one for each unit of the pattern and in
its order. Rows answer this for every end of the text at once, and the regular expression of the
pattern asks for the same pieces between the marks of the start and the end.
-/

namespace ProximityQuery.Wildcard

/-- Whether a text is a concatenation of pieces that match the units of a pattern in order. -/
inductive Matches : (pattern text : List Char) → Prop
  | nil : Matches [] []
  | star {pattern run text : List Char} (hrun : '\n' ∉ run) (rest : Matches pattern text) :
    Matches ('*' :: pattern) (run ++ text)
  | question {pattern text : List Char} {c : Char} (hc : c ≠ '\n') (rest : Matches pattern text) :
    Matches ('?' :: pattern) (c :: text)
  | escaped {pattern text : List Char} (c : Char) (rest : Matches pattern text) :
    Matches ('\\' :: c :: pattern) (c :: text)
  | trailing : Matches ['\\'] []
  | plain {pattern text : List Char} {c : Char} (hstar : c ≠ '*') (hquestion : c ≠ '?')
    (hbackslash : c ≠ '\\') (rest : Matches pattern text) : Matches (c :: pattern) (c :: text)

/-- Whether a unit takes a piece of text. -/
inductive Piece.Takes : Piece → List Char → Prop
  | run {part : List Char} (hpart : '\n' ∉ part) : Takes .run part
  | any {c : Char} (hc : c ≠ '\n') : Takes .any [c]
  | exactly (c : Char) : Takes (.exactly c) [c]

/-- Whether units take the pieces of a text in order. -/
inductive Taken : List Piece → List Char → Prop
  | nil : Taken [] []
  | cons {p : Piece} {ps : List Piece} {part text : List Char} (first : p.Takes part)
    (rest : Taken ps text) : Taken (p :: ps) (part ++ text)

section

variable {p : Piece} {ps qs : List Piece} {c : Char} {pattern text : List Char}

/-- Only the empty text is taken by no units. -/
theorem taken_nil_iff : Taken [] text ↔ text = [] := by
  constructor
  · rintro ⟨⟩
    rfl
  · rintro rfl
    exact .nil

/-- The first unit takes a beginning of the text and the others take the rest. -/
theorem taken_cons_iff :
    Taken (p :: ps) text ↔ ∃ part rest, text = part ++ rest ∧ p.Takes part ∧ Taken ps rest := by
  constructor
  · rintro ⟨⟩
    exact ⟨_, _, rfl, ‹_›, ‹_›⟩
  · rintro ⟨part, rest, rfl, hpart, hrest⟩
    exact .cons hpart hrest

/-- Units in two groups take the text in two parts. -/
theorem taken_append_iff :
    Taken (ps ++ qs) text ↔
      ∃ left right, text = left ++ right ∧ Taken ps left ∧ Taken qs right := by
  induction ps generalizing text with
  | nil => simp [taken_nil_iff]
  | cons p ps ih =>
    rw [List.cons_append, taken_cons_iff]
    constructor
    · rintro ⟨part, rest, rfl, hpart, hrest⟩
      obtain ⟨left, right, rfl, hleft, hright⟩ := ih.mp hrest
      exact ⟨part ++ left, right, (List.append_assoc ..).symm, .cons hpart hleft, hright⟩
    · rintro ⟨left, right, rfl, hleft, hright⟩
      obtain ⟨part, rest, rfl, hpart, hrest⟩ := taken_cons_iff.mp hleft
      have hbehind : Taken (ps ++ qs) (rest ++ right) := ih.mpr ⟨rest, right, rfl, hrest, hright⟩
      exact ⟨part, rest ++ right, List.append_assoc .., hpart, hbehind⟩

/-- A unit that takes one character takes the first of a text, if it admits it. -/
theorem taken_one_cons_iff (hp : p ≠ .run) :
    Taken (p :: ps) (c :: text) ↔ p.admits c = true ∧ Taken ps text := by
  rw [taken_cons_iff]
  constructor
  · rintro ⟨part, rest, htext, hpart, hrest⟩
    cases hpart with
    | run => exact absurd rfl hp
    | any hc =>
      obtain ⟨rfl, rfl⟩ := List.cons.inj htext
      exact ⟨by simpa [Piece.admits] using hc, hrest⟩
    | exactly d =>
      obtain ⟨rfl, rfl⟩ := List.cons.inj htext
      exact ⟨by simp [Piece.admits], hrest⟩
  · rintro ⟨hadmits, hrest⟩
    cases p with
    | run => exact absurd rfl hp
    | any => exact ⟨[c], text, rfl, .any (by simpa [Piece.admits] using hadmits), hrest⟩
    | exactly d =>
      obtain rfl : c = d := by simpa [Piece.admits] using hadmits
      exact ⟨[c], text, rfl, .exactly c, hrest⟩

/-- A unit for one character does not take the empty text. -/
theorem not_taken_one_nil (hp : p ≠ .run) : ¬ Taken (p :: ps) [] := by
  rw [taken_cons_iff]
  rintro ⟨part, rest, htext, hpart, -⟩
  obtain ⟨rfl, rfl⟩ := List.nil_eq_append_iff.mp htext
  cases hpart
  exact hp rfl

/-- A run takes a beginning without a line feed. -/
theorem taken_run_iff :
    Taken (.run :: ps) text ↔ ∃ run rest, text = run ++ rest ∧ '\n' ∉ run ∧ Taken ps rest := by
  rw [taken_cons_iff]
  constructor
  · rintro ⟨part, rest, rfl, ⟨hpart⟩, hrest⟩
    exact ⟨part, rest, rfl, hpart, hrest⟩
  · rintro ⟨run, rest, rfl, hrun, hrest⟩
    exact ⟨run, rest, rfl, .run hrun, hrest⟩

/-- On the empty text a run takes nothing. -/
theorem taken_run_nil_iff : Taken (.run :: ps) [] ↔ Taken ps [] := by
  simp [taken_run_iff]

/-- A star takes nothing, or it takes a character and then goes on. -/
theorem taken_run_cons_iff :
    Taken (.run :: ps) (c :: text) ↔ Taken ps (c :: text) ∨ c ≠ '\n' ∧ Taken (.run :: ps) text := by
  rw [taken_run_iff, taken_run_iff]
  exact Regex.exists_run_cons_iff

theorem pieces_cons_of_ne (hc : c ≠ '\\') (s : List Char) :
    pieces (c :: s) = Piece.ofChar c :: pieces s := by
  rw [pieces.eq_def]
  simp [hc]

/-- A pattern matches what its units take. -/
theorem matches_iff_taken : Matches pattern text ↔ Taken (pieces pattern) text := by
  constructor
  · intro h
    induction h with
    | nil => exact .nil
    | star hrun _ ih =>
      rw [pieces_cons_of_ne (by decide)]
      exact .cons (.run hrun) ih
    | question hc _ ih =>
      rw [pieces_cons_of_ne (by decide)]
      exact .cons (.any hc) ih
    | escaped c _ ih => exact .cons (.exactly c) ih
    | trailing => exact .nil
    | @plain pattern text c hstar hquestion hbackslash _ ih =>
      rw [pieces_cons_of_ne hbackslash, Piece.ofChar, if_neg hstar, if_neg hquestion]
      exact .cons (.exactly c) ih
  · intro h
    fun_induction pieces pattern generalizing text with
    | case1 =>
      rw [taken_nil_iff.mp h]
      exact .nil
    | case2 =>
      rw [taken_nil_iff.mp h]
      exact .trailing
    | case3 d s ih =>
      obtain ⟨part, rest, rfl, ⟨⟩, hrest⟩ := taken_cons_iff.mp h
      exact .escaped d (ih hrest)
    | case4 c s hbackslash ih =>
      obtain ⟨part, rest, rfl, hpart, hrest⟩ := taken_cons_iff.mp h
      rw [Piece.ofChar] at hpart
      by_cases hstar : c = '*'
      · subst hstar
        obtain ⟨hpart⟩ := hpart
        exact .star hpart (ih hrest)
      · by_cases hquestion : c = '?'
        · subst hquestion
          obtain ⟨⟩ := hpart
          exact .question ‹_› (ih hrest)
        · rw [if_neg hstar, if_neg hquestion] at hpart
          obtain ⟨⟩ := hpart
          exact .plain hstar hquestion hbackslash (ih hrest)

end

section

open Classical

/-- For each end of a text, from the longest to the empty one, whether units take it. -/
noncomputable def takenRow (ps : List Piece) (text : List Char) : List Bool :=
  text.tails.map fun rest => decide (Taken ps rest)

variable (p : Piece) (ps : List Piece) (text : List Char)

/-- The head of a row is about the whole text. -/
theorem headD_takenRow : (takenRow ps text).headD false = decide (Taken ps text) := by
  cases text with
  | nil => rfl
  | cons c text => rfl

theorem takenRow_cons (c : Char) :
    takenRow ps (c :: text) = decide (Taken ps (c :: text)) :: takenRow ps text := by
  rw [takenRow, List.tails_cons, List.map_cons, takenRow]

/-- The first row is that of no units. -/
theorem emptyRow_eq : emptyRow text = takenRow [] text := by
  induction text with
  | nil => simp [emptyRow, takenRow, taken_nil_iff]
  | cons c text ih =>
    have hempty : emptyRow (c :: text) = false :: emptyRow text := rfl
    rw [hempty, ih, takenRow_cons]
    simp [taken_nil_iff]

theorem prependRow_nil (hp : p ≠ .run) (row : List Bool) : prependRow p [] row = [false] := by
  cases p with
  | run => exact absurd rfl hp
  | any => rfl
  | exactly c => rfl

/-- A unit for one character takes it if it may, and the row answers for the rest. -/
theorem prependRow_cons (hp : p ≠ .run) (c : Char) (here : Bool) (row : List Bool) :
    prependRow p (c :: text) (here :: row) =
      (p.admits c && row.headD false) :: prependRow p text row := by
  cases p with
  | run => exact absurd rfl hp
  | any => rfl
  | exactly d => rfl

/-- The row of a unit before others follows from their row. -/
theorem prependRow_takenRow : prependRow p text (takenRow ps text) = takenRow (p :: ps) text := by
  induction text with
  | nil =>
    by_cases hp : p = .run
    · subst hp
      simp [prependRow, takenRow, taken_run_nil_iff]
    · rw [prependRow_nil p hp]
      simp [takenRow, not_taken_one_nil hp]
  | cons c text ih =>
    rw [takenRow_cons, takenRow_cons]
    by_cases hp : p = .run
    · subst hp
      rw [prependRow]
      simp only [ih, headD_takenRow, taken_run_cons_iff, Bool.decide_or, Bool.decide_and]
    · rw [prependRow_cons p text hp, ih, headD_takenRow]
      simp [taken_one_cons_iff hp]

/-- The rows that are computed say which ends of the text are taken. -/
theorem matchRow_eq : matchRow text ps = takenRow ps text := by
  induction ps with
  | nil => exact emptyRow_eq text
  | cons p ps ih =>
    have hcons : matchRow text (p :: ps) = prependRow p text (matchRow text ps) := rfl
    rw [hcons, ih, prependRow_takenRow]

end

open Classical in
/-- The first place of the row of a pattern is for the whole text. -/
theorem isMatch_iff_taken {pattern text : String} :
    isMatch pattern text = true ↔ Taken (pieces pattern.toList) text.toList := by
  rw [isMatch, matchRow_eq, headD_takenRow, decide_eq_true_iff]

open Regex

/-- The element of an expression that a unit becomes. -/
def Piece.element : Piece → Element
  | .run => .dots
  | .any => .dot
  | .exactly c => .literal c

/-- A pattern is translated unit by unit. -/
theorem expressionBody_eq (escape : Char → String) (pattern : List Char) :
    expressionBody escape pattern =
      ((pieces pattern).map Piece.element).flatMap (Element.text escape) := by
  fun_induction expressionBody escape pattern with
  | case1 => rfl
  | case2 s ih =>
    rw [ih, pieces_cons_of_ne (by decide)]
    rfl
  | case3 s ih =>
    rw [ih, pieces_cons_of_ne (by decide)]
    rfl
  | case4 => rfl
  | case5 c s ih =>
    rw [ih]
    rfl
  | case6 c s hstar hquestion hlone hescape ih =>
    have hbackslash : c ≠ '\\' := by
      rintro rfl
      cases s with
      | nil => exact hlone rfl rfl
      | cons d s => exact hescape d s rfl rfl
    have hchar : Piece.ofChar c = .exactly c := by
      rw [Piece.ofChar, if_neg hstar, if_neg hquestion]
    rw [ih, pieces_cons_of_ne hbackslash, hchar]
    rfl

/-- Before the mark of the end, the elements of a pattern take the rest of a text. -/
theorem fitsAt_elements_iff (ps : List Piece) (before behind : List Char) :
    FitsAt (ps.map Piece.element ++ [.finish]) before behind ↔ Taken ps behind := by
  induction ps generalizing before behind with
  | nil =>
    rw [List.map_nil, List.nil_append, fitsAt_finish_iff, taken_nil_iff]
    simp [FitsAt.nil]
  | cons p ps ih =>
    rw [List.map_cons, List.cons_append]
    cases p with
    | run =>
      rw [Piece.element, fitsAt_dots_iff, taken_run_iff]
      simp only [ih]
    | any =>
      cases behind with
      | nil => simp [Piece.element, not_fitsAt_dot_nil, not_taken_one_nil]
      | cons c behind =>
        rw [Piece.element, fitsAt_dot_cons_iff, taken_one_cons_iff (by simp), ih]
        simp [Piece.admits]
    | exactly d =>
      cases behind with
      | nil => simp [Piece.element, not_fitsAt_literal_nil, not_taken_one_nil]
      | cons c behind =>
        rw [Piece.element, fitsAt_literal_cons_iff, taken_one_cons_iff (by simp), ih]
        simp [Piece.admits]

/-- A package of regular expressions finds the expression of a pattern in a text just when the units
of the pattern take the text. -/
theorem isMatch_expression_iff_taken {r : Package} (hr : r.Documented) (pattern text : String) :
    r.isMatch (expression r.escape pattern) text = true ↔
      Taken (pieces pattern.toList) text.toList := by
  have hexpression : expression r.escape pattern =
      String.ofList ((.start :: ((pieces pattern.toList).map Piece.element ++ [.finish])).flatMap
        (Element.text r.escape)) := by
    rw [expression, expressionBody_eq, List.flatMap_cons, List.flatMap_append]
    rfl
  rw [hexpression, hr]
  -- the mark of the start fits at the first place only
  constructor
  · rintro ⟨before, behind, htext, hfits⟩
    obtain ⟨rfl, hfits⟩ := fitsAt_start_iff.mp hfits
    rw [htext, List.nil_append]
    exact (fitsAt_elements_iff ..).mp hfits
  · intro htaken
    exact ⟨[], text.toList, rfl, .start ((fitsAt_elements_iff ..).mpr htaken)⟩

/-- A pattern matches a text just when the text is a concatenation of pieces that match the units of
the pattern in order. Every package of regular expressions that does what is documented finds this
of the expression of the pattern, and so do the rows. -/
theorem isMatch_expression_iff (r : Package) (hr : r.Documented) (pattern text : String) :
    (r.isMatch (expression r.escape pattern) text = true ↔ Matches pattern.toList text.toList) ∧
      (isMatch pattern text = true ↔ Matches pattern.toList text.toList) := by
  rw [matches_iff_taken]
  exact ⟨isMatch_expression_iff_taken hr pattern text, isMatch_iff_taken⟩

/-- Stars leave a choice of pieces, an escaped star does not, and a backslash at the end matches
nothing. -/
theorem isMatch_expression_of_two_stars :
    searching.Documented ∧
      searching.isMatch (expression searching.escape "*.\\*?*\\") "a.b.*cd" = true ∧
      Matches "*.\\*?*\\".toList "a.b.*cd".toList := by
  obtain ⟨hexpression, hrows⟩ :=
    isMatch_expression_iff searching searching_documented "*.\\*?*\\" "a.b.*cd"
  have hmatches : Matches "*.\\*?*\\".toList "a.b.*cd".toList := hrows.mp (by decide +kernel)
  exact ⟨searching_documented, hexpression.mpr hmatches, hmatches⟩

end ProximityQuery.Wildcard
