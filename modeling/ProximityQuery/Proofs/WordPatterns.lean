import ProximityQuery.Proofs.Continuation
import ProximityQuery.Proofs.SpelledLevel
import ProximityQuery.Proofs.WildcardWidening

/-!
# Words as patterns

Escapes are read twice: the reader of words takes them off a word, and a pattern takes them off
again when it is matched. Both make the same of a word. The letters of the word are the units of
the pattern that is the word as written; a letter that is no wildcard matches the character it
means and nothing else, and a wildcard matches, among others, the star or the question mark that it
is written as.
-/

namespace ProximityQuery

open Grammar Wildcard

/-- The unit that a letter of a word is in a pattern. -/
def Grammar.Letter.piece : Letter → Piece
  | .plain c => .ofChar c
  | .escaped c => .exactly c

/-- Every letter of a word can be written. -/
theorem isReadable_of_mem_readWord (s : List Char) :
    ∀ l ∈ (readWord s).1, l.isReadable = true := by
  fun_induction readWord s with
  | case1 => simp
  | case2 => simp
  | case3 d s ih =>
    intro l hl
    rcases List.mem_cons.mp hl with rfl | hl
    · rfl
    · exact ih l hl
  | case4 => simp
  | case5 c s hc hend ih =>
    intro l hl
    rcases List.mem_cons.mp hl with rfl | hl
    · simp [Letter.isReadable, hc, hend]
    · exact ih l hl

/-- A plain letter that can be written is no backslash. -/
theorem ne_backslash_of_isReadable {c : Char} (h : (Letter.plain c).isReadable = true) :
    c ≠ '\\' := by
  simp only [Letter.isReadable, Bool.and_eq_true, decide_eq_true_eq] at h
  exact h.1

/-- A word as written is the pattern of its letters. -/
theorem pieces_written {letters : List Letter} (h : ∀ l ∈ letters, l.isReadable = true) :
    pieces (letters.flatMap Letter.written) = letters.map Letter.piece := by
  induction letters with
  | nil => rfl
  | cons l letters ih =>
    have hrest := ih fun l hl => h l (List.mem_cons_of_mem _ hl)
    rw [List.flatMap_cons, List.map_cons, ← hrest]
    cases l with
    | plain c => exact pieces_cons_of_ne (ne_backslash_of_isReadable (h _ List.mem_cons_self)) _
    | escaped c => rfl

/-- The letters of a word take the text that the word means. -/
theorem taken_map_char (letters : List Letter) :
    Taken (letters.map Letter.piece) (letters.map Letter.char) := by
  have hletter : ∀ l : Letter, l.piece.Takes [l.char] := by
    intro l
    cases l with
    | escaped c => exact .exactly c
    | plain c =>
      rw [Letter.piece, Letter.char, Piece.ofChar]
      split
      next hstar => exact .run (by simp [hstar])
      next =>
        split
        next hquestion => exact .any (by simp [hquestion])
        next => exact .exactly c
  induction letters with
  | nil => exact .nil
  | cons l letters ih => exact .cons (hletter l) ih

/-- Without wildcards the letters of a word take no other text. -/
theorem taken_iff_of_not_wild {letters : List Letter} (h : letters.any Letter.isWild = false)
    {text : List Char} : Taken (letters.map Letter.piece) text ↔ text = letters.map Letter.char := by
  have hletter : ∀ l ∈ letters, l.piece = .exactly l.char := by
    intro l hl
    cases l with
    | escaped c => rfl
    | plain c =>
      have hwild : (Letter.plain c).isWild = false := by
        simpa using List.any_eq_false.mp h _ hl
      simp only [Letter.isWild, Bool.or_eq_false_iff, decide_eq_false_iff_not] at hwild
      rw [Letter.piece, Piece.ofChar, if_neg hwild.1, if_neg hwild.2, Letter.char]
  refine ⟨fun htaken => ?_, fun htext => htext ▸ taken_map_char letters⟩
  clear h
  induction letters generalizing text with
  | nil => exact taken_nil_iff.mp htaken
  | cons l letters ih =>
    have hrest := fun l hl => hletter l (List.mem_cons_of_mem _ hl)
    rw [List.map_cons, hletter l List.mem_cons_self] at htaken
    obtain ⟨_, rest, rfl, ⟨⟩, htail⟩ := taken_cons_iff.mp htaken
    rw [ih hrest htail]
    rfl

/-- A character of a text that is a star or a question mark and not the second half of an escape:
the backslashes before it escape one another. -/
def HasWildcard (s : List Char) : Prop :=
  ∃ before c behind, s = before ++ c :: behind ∧ (c = '*' ∨ c = '?') ∧ EscapesClosed before

/-- A character without a backslash before it is a wildcard if it is a star or a question mark. -/
theorem hasWildcard_cons_iff {c : Char} (hc : c ≠ '\\') (s : List Char) :
    HasWildcard (c :: s) ↔ c = '*' ∨ c = '?' ∨ HasWildcard s := by
  constructor
  · rintro ⟨before, d, behind, hsplit, hd, hclosed⟩
    cases before with
    | nil =>
      obtain ⟨rfl, rfl⟩ := List.cons.inj hsplit
      exact hd.imp_right .inl
    | cons e before =>
      obtain ⟨rfl, rfl⟩ := List.cons.inj hsplit
      have hclosed := (escapesClosed_append_cons [] hc before).mp hclosed
      exact .inr (.inr ⟨before, d, behind, rfl, hd, hclosed⟩)
  · rintro (hstar | hquestion | ⟨before, d, behind, rfl, hd, hclosed⟩)
    · exact ⟨[], c, s, rfl, .inl hstar, escapesClosed_nil⟩
    · exact ⟨[], c, s, rfl, .inr hquestion, escapesClosed_nil⟩
    · have hclosed := (escapesClosed_append_cons [] hc before).mpr hclosed
      exact ⟨c :: before, d, behind, rfl, hd, hclosed⟩

/-- An escaped character is no wildcard. -/
theorem hasWildcard_escaped_iff (c : Char) (s : List Char) :
    HasWildcard ('\\' :: c :: s) ↔ HasWildcard s := by
  constructor
  · rintro ⟨before, d, behind, hsplit, hd, hclosed⟩
    match before with
    | [] =>
      obtain ⟨rfl, -⟩ := List.cons.inj hsplit
      simp at hd
    | [_] =>
      obtain ⟨rfl, -⟩ := List.cons.inj hsplit
      exact absurd hclosed (by decide)
    | _ :: _ :: before =>
      obtain ⟨rfl, hbehind⟩ := List.cons.inj hsplit
      obtain ⟨rfl, rfl⟩ := List.cons.inj hbehind
      exact ⟨before, d, behind, rfl, hd, escapesClosed_escaped.mp hclosed⟩
  · rintro ⟨before, d, behind, rfl, hd, hclosed⟩
    exact ⟨'\\' :: c :: before, d, behind, rfl, hd, escapesClosed_escaped.mpr hclosed⟩

/-- A word has a wildcard just when there is one in it as it is written. -/
theorem any_isWild_iff_hasWildcard {letters : List Letter}
    (h : ∀ l ∈ letters, l.isReadable = true) :
    letters.any Letter.isWild = true ↔ HasWildcard (letters.flatMap Letter.written) := by
  induction letters with
  | nil => simp [HasWildcard]
  | cons l letters ih =>
    have hrest := ih fun l hl => h l (List.mem_cons_of_mem _ hl)
    rw [List.any_cons, Bool.or_eq_true, List.flatMap_cons, hrest]
    cases l with
    | plain c =>
      have hc := ne_backslash_of_isReadable (h _ List.mem_cons_self)
      rw [Letter.written, List.singleton_append, hasWildcard_cons_iff hc]
      simp [Letter.isWild, or_assoc]
    | escaped c =>
      rw [Letter.written, List.cons_append, List.singleton_append, hasWildcard_escaped_iff]
      simp [Letter.isWild]

/-- The ways to match a pattern: by rows, or with a package of regular expressions that finds the
expression of the pattern. -/
inductive Wildcard.IsMatcher : (String → String → Bool) → Prop
  | rows : IsMatcher isMatch
  | search {r : Regex.Package} (hr : r.Documented) :
    IsMatcher fun pattern text => r.isMatch (expression r.escape pattern) text

/-- All ways to match a pattern ask what its units take. -/
theorem Wildcard.IsMatcher.iff_taken {accepts : String → String → Bool} (h : IsMatcher accepts)
    {pattern : List Char} {text : String} :
    accepts (String.ofList pattern) text = true ↔ Taken (pieces pattern) text.toList := by
  cases h with
  | rows => rw [isMatch_iff_taken, String.toList_ofList]
  | search hr => rw [isMatch_expression_iff_taken hr, String.toList_ofList]

/-- The letters of a text with a backslash before every character and a star at the end. -/
def prefixLetters (text : String) : List Letter :=
  text.toList.map .escaped ++ [.plain '*']

/-- A prefix is written as an escaped text with a star behind it. -/
theorem written_prefixLetters (text : String) :
    (prefixLetters text).flatMap Letter.written = escaped text ++ ['*'] := by
  rw [prefixLetters, List.flatMap_append, ← escaped_eq_written]
  rfl

theorem isReadable_prefixLetters (text : String) :
    ∀ l ∈ prefixLetters text, l.isReadable = true := by
  intro l hl
  rcases List.mem_append.mp hl with hl | hl
  · exact isReadable_escaped text l hl
  · obtain rfl := List.mem_singleton.mp hl
    rfl

/-- The star behind a prefix is a wildcard. -/
theorem any_isWild_prefixLetters (text : String) :
    (prefixLetters text).any Letter.isWild = true := by
  simp [prefixLetters, Letter.isWild]

/-- As a whole query such a text is the pattern that it is as written. -/
theorem ofText?_prefixText (d : Dialect) (field text : String) :
    let token := String.ofList (escaped text ++ ['*'])
    Expression.ofText? d field token = .ok (.multiTerm field (.wildcard token)) := by
  by_cases htext : text = ""
  · subst htext
    rfl
  · have hreads : SpellsStart d nestingLimit field (escaped text ++ ['*'])
        (.multiTerm field (.wildcard (String.ofList (escaped text ++ ['*'])))) := by
      refine ⟨startsClause_append (startsClause_escaped ⟨text, htext⟩) _, fun hrest => ?_⟩
      rw [← written_prefixLetters]
      exact readPrimary_wildcard d nestingLimit field (isReadable_prefixLetters text)
        (any_isWild_prefixLetters text) hrest
    exact hreads.spellsClause.ofText?

/-- Its units take the texts that begin with `text` and go on without a line feed. -/
theorem taken_prefixText_iff (text : String) {t : List Char} :
    Taken (pieces (escaped text ++ ['*'])) t ↔
      ∃ behind, t = text.toList ++ behind ∧ '\n' ∉ behind := by
  have hpieces : pieces (escaped text ++ ['*']) =
      (text.toList.map Letter.escaped).map Letter.piece ++ [.run] := by
    rw [← written_prefixLetters, pieces_written (isReadable_prefixLetters text), prefixLetters,
      List.map_append]
    rfl
  have hchars : (text.toList.map Letter.escaped).map Letter.char = text.toList := by
    simpa using congrArg String.toList (map_char_escaped text)
  rw [hpieces, taken_append_iff]
  simp only [taken_iff_of_not_wild (any_isWild_escaped text), hchars, taken_run_self_iff]
  constructor
  · rintro ⟨_, behind, rfl, rfl, hbehind⟩
    exact ⟨behind, rfl, hbehind⟩
  · rintro ⟨behind, rfl, hbehind⟩
    exact ⟨text.toList, behind, rfl, rfl, hbehind⟩

/-- The word at the head of a text has a wildcard just when there is one in it as it is written. As
a pattern, the word as written matches the text that the word means, and without wildcards it
matches nothing else. A text with a backslash before each of its characters and a star behind them
is, before whatever ends a word, a word with a wildcard; as a query it is a pattern, and the pattern
matches the texts that begin with that text and go on without a line feed. -/
theorem accepts_word_as_written {accepts : String → String → Bool} (h : IsMatcher accepts) :
    (∀ s : List Char,
      let letters := (readWord s).1
      let raw := letters.flatMap Letter.written
      let text := letters.map Letter.char
      (letters.any Letter.isWild = true ↔ HasWildcard raw) ∧
      (letters.any Letter.isWild = false →
        ∀ t : String, accepts (String.ofList raw) t = true ↔ t = String.ofList text) ∧
      accepts (String.ofList raw) (String.ofList text) = true) ∧
    ∀ text : String,
      let token := escaped text ++ ['*']
      (∀ rest : List Char, (∀ c ∈ rest.head?, endsWord c = true) →
        ∃ letters, readWord (token ++ rest) = (letters, rest) ∧
          letters.flatMap Letter.written = token ∧ letters.any Letter.isWild = true) ∧
      (∀ (d : Dialect) (field : String), Expression.ofText? d field (String.ofList token) =
        .ok (.multiTerm field (.wildcard (String.ofList token)))) ∧
      ∀ t : String, accepts (String.ofList token) t = true ↔
        ∃ behind, t.toList = text.toList ++ behind ∧ '\n' ∉ behind := by
  refine ⟨fun s => ?_, fun text => ?_⟩
  · have hreadable := isReadable_of_mem_readWord s
    refine ⟨any_isWild_iff_hasWildcard hreadable, fun hwild t => ?_, ?_⟩
    · rw [h.iff_taken, pieces_written hreadable, taken_iff_of_not_wild hwild,
        ← String.toList_inj, String.toList_ofList]
    · rw [h.iff_taken, pieces_written hreadable, String.toList_ofList]
      exact taken_map_char _
  · refine ⟨fun rest hrest => ?_, fun d field => ofText?_prefixText d field text, fun t => ?_⟩
    · have hread := readWord_written (isReadable_prefixLetters text) hrest
      rw [written_prefixLetters] at hread
      exact ⟨_, hread, written_prefixLetters text, any_isWild_prefixLetters text⟩
    · rw [h.iff_taken]
      exact taken_prefixText_iff text

/-- An escaped backslash leaves the star behind it a wildcard, and an escaped star is none; a
backslash at the very end is neither in the word nor in the pattern. -/
theorem accepts_word_as_written_of_escaped_star :
    let accepts : String → String → Bool := fun pattern text =>
      Regex.searching.isMatch (expression Regex.searching.escape pattern) text
    IsMatcher accepts ∧ HasWildcard "\\\\*".toList ∧ ¬ HasWildcard "a\\*".toList ∧
      (∀ t, accepts "a\\*" t = true ↔ t = "a*") ∧ accepts "\\a\\**" "a*bc" = true := by
  intro accepts
  have h : IsMatcher accepts := .search Regex.searching_documented
  obtain ⟨hword, hprefix⟩ := accepts_word_as_written h
  obtain ⟨hwild, -, -⟩ := hword "\\\\*".toList
  obtain ⟨hplain, hothers, -⟩ := hword "a\\*\\".toList
  obtain ⟨-, -, hbegins⟩ := hprefix "a*"
  exact ⟨h, hwild.mp rfl, fun hnone => absurd (hplain.mpr hnone) (by decide), hothers rfl,
    (hbegins "a*bc").mpr ⟨"bc".toList, rfl, by decide⟩⟩

end ProximityQuery
