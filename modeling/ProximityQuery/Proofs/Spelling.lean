import Mathlib.Data.List.Forall2
import Mathlib.Data.List.Basic
import ProximityQuery.Proofs.ParseErrors
import ProximityQuery.Proofs.Reading

/-!
# Spelling

How the parts of a query are written so that the readers give them back: words letter by letter,
names, whole numbers, quoted texts and bounds, and the starts of clauses made of these. Each part is
read back whatever follows it, as long as that cannot belong to the part.
-/

namespace ProximityQuery

open Grammar

/-- A text before which the start of a clause may end: nothing, a blank, a closing parenthesis or
the sign of a boost. -/
def EndsStart (rest : List Char) : Prop :=
  ∀ c ∈ rest.head?, isBlank c = true ∨ c = ')' ∨ c = '^'

/-- A text before which a clause may end: nothing, a blank or a closing parenthesis. -/
def EndsClause (rest : List Char) : Prop :=
  ∀ c ∈ rest.head?, isBlank c = true ∨ c = ')'

theorem endsClause_nil : EndsClause [] := nofun

/-- A blank ends a clause. -/
theorem endsClause_blank (rest : List Char) : EndsClause (' ' :: rest) := by
  rintro c hc
  obtain rfl := Option.some.inj hc
  exact .inl rfl

/-- So does a closing parenthesis. -/
theorem endsClause_close (rest : List Char) : EndsClause (')' :: rest) := by
  rintro c hc
  obtain rfl := Option.some.inj hc
  exact .inr rfl

/-- A caret ends what may be boosted. -/
theorem endsStart_boost (rest : List Char) : EndsStart ('^' :: rest) := by
  rintro c hc
  obtain rfl := Option.some.inj hc
  exact .inr (.inr rfl)

/-- What ends a clause ends its start. -/
theorem EndsClause.endsStart {rest : List Char} (h : EndsClause rest) : EndsStart rest :=
  fun c hc => (h c hc).imp_right .inl

/-- No blank belongs to a number. -/
theorem isNumeral_of_isBlank {c : Char} (h : isBlank c = true) : isNumeral c = false := by
  simp only [isBlank, Bool.or_eq_true, Bool.and_eq_true, decide_eq_true_eq] at h
  have hpoint : c ≠ '.' := by
    rintro rfl
    revert h
    decide
  have hdigit : ¬ c.isDigit = true := by
    intro hd
    simp only [Char.isDigit, Bool.and_eq_true, decide_eq_true_eq, ge_iff_le,
      UInt32.le_iff_toNat_le] at hd
    have hrange : 48 ≤ c.toNat ∧ c.toNat ≤ 57 := hd
    omega
  simp [isNumeral, hpoint, hdigit]

/-- No number goes on where the start of a clause ends. -/
theorem EndsStart.isNumeral {rest : List Char} (h : EndsStart rest) :
    ∀ c ∈ rest.head?, isNumeral c = false := by
  intro c hc
  rcases h c hc with hblank | rfl | rfl
  · exact isNumeral_of_isBlank hblank
  · rfl
  · rfl

/-- Neither the mark of a field nor that of a fuzzy term may follow the start of a clause. -/
theorem EndsStart.ne_colon_and_ne_tilde {c : Char} {rest : List Char} (h : EndsStart (c :: rest)) :
    c ≠ ':' ∧ c ≠ '~' := by
  rcases h c rfl with hblank | rfl | rfl
  · constructor
    · rintro rfl
      cases hblank
    · rintro rfl
      cases hblank
  · decide
  · decide

/-- No word does either. -/
theorem EndsStart.endsWord {rest : List Char} (h : EndsStart rest) :
    ∀ c ∈ rest.head?, endsWord c = true := by
  intro c hc
  rcases h c hc with hblank | rfl | rfl
  · simp [Grammar.endsWord, hblank]
  · rfl
  · rfl

theorem endsWord_cons {c : Char} (hc : endsWord c = true) (rest : List Char) :
    ∀ c' ∈ (c :: rest).head?, endsWord c' = true := by
  intro c' hc'
  obtain rfl := Option.some.inj hc'
  exact hc

/-- Whether a letter is written so that the reader of words takes it: a plain character neither
ends a word nor is a backslash. -/
def Grammar.Letter.isReadable : Letter → Bool
  | .plain c => c ≠ '\\' && !endsWord c
  | .escaped _ => true

/-- A word as written is read back letter by letter. -/
theorem readWord_written {letters : List Letter} {rest : List Char}
    (h : ∀ l ∈ letters, l.isReadable = true) (hrest : ∀ c ∈ rest.head?, endsWord c = true) :
    readWord (letters.flatMap Letter.written ++ rest) = (letters, rest) := by
  induction letters with
  | nil =>
    cases rest with
    | nil => rfl
    | cons c rest => exact readWord_end (hrest c rfl) rest
  | cons l letters ih =>
    have hrec := ih fun l hmem => h l (List.mem_cons_of_mem _ hmem)
    cases l with
    | plain c =>
      have hl := h _ List.mem_cons_self
      simp only [Letter.isReadable, Bool.and_eq_true, decide_eq_true_eq, Bool.not_eq_true'] at hl
      have hread := readWord_plain hl.1 hl.2 (letters.flatMap Letter.written ++ rest)
      rw [hrec] at hread
      exact hread
    | escaped c =>
      have hread := readWord_escaped c (letters.flatMap Letter.written ++ rest)
      rw [hrec] at hread
      exact hread

/-- A text that can be written as a word or as the name of a field: any but the empty one. -/
abbrev Word := { text : String // text ≠ "" }

/-- A text with a backslash before every character. -/
def escaped (text : String) : List Char :=
  text.toList.flatMap fun c => ['\\', c]

/-- A whole number in decimal digits. -/
def numeral (n : UInt32) : List Char :=
  Nat.toDigits 10 n.toNat

/-- The class of characters that a reader takes splits a text where its class ends. -/
theorem takeWhile_append_stop {p : Char → Bool} {s rest : List Char} (hs : ∀ c ∈ s, p c = true)
    (hrest : ∀ c ∈ rest.head?, p c = false) : (s ++ rest).takeWhile p = s := by
  rw [List.takeWhile_append_of_pos hs]
  cases rest with
  | nil => simp
  | cons c rest => simp [hrest c rfl]

/-- What is left begins at the first character that does not belong. -/
theorem dropWhile_append_stop {p : Char → Bool} {s rest : List Char} (hs : ∀ c ∈ s, p c = true)
    (hrest : ∀ c ∈ rest.head?, p c = false) : (s ++ rest).dropWhile p = rest := by
  rw [List.dropWhile_append_of_pos hs]
  cases rest with
  | nil => rfl
  | cons c rest => simp [hrest c rfl]

/-- A quantity is read back up to the first character that no number takes. -/
theorem readQuantity_append {α : Type} (what : Quantity) {value? : List Char → Option α}
    {digits rest : List Char} {x : α} (hdigits : ∀ c ∈ digits, isNumeral c = true)
    (hvalue : value? digits = some x) (hrest : ∀ c ∈ rest.head?, isNumeral c = false) :
    readQuantity what value? (digits ++ rest) = .ok (x, rest) := by
  have htake := takeWhile_append_stop hdigits hrest
  have hdrop := dropWhile_append_stop hdigits hrest
  rw [readQuantity, htake, hdrop, hvalue]

/-- A written number is made of digits. -/
theorem isNumeral_of_mem_numeral {n : UInt32} {c : Char} (h : c ∈ numeral n) :
    isNumeral c = true := by
  have hdigit := Nat.isDigit_of_mem_toDigits (by omega) (by omega) h
  simp [isNumeral, hdigit]

/-- A written number is read as itself. -/
theorem uint32?_numeral (n : UInt32) : Decimal.uint32? (numeral n) = some n := by
  have hlt : n.toNat < UInt32.size := n.toNat_lt
  simp [Decimal.uint32?, numeral, Decimal.natural?_toDigits, hlt]

/-- A whole number is read back from its digits. -/
theorem readOptional_numeral (what : Quantity) (default n : UInt32) {rest : List Char}
    (hrest : ∀ c ∈ rest.head?, isNumeral c = false) :
    readOptional what default (numeral n ++ rest) = .ok (n, rest) := by
  have hstart : startsWithDigit (numeral n ++ rest) = true := by
    cases hdigits : numeral n with
    | nil => exact absurd hdigits Nat.toDigits_ne_nil
    | cons c digits =>
      have hmem : c ∈ numeral n := hdigits ▸ List.mem_cons_self
      exact Nat.isDigit_of_mem_toDigits (by omega) (by omega) hmem
  rw [readOptional, if_pos hstart]
  exact readQuantity_append what (fun c hc => isNumeral_of_mem_numeral hc) (uint32?_numeral n) hrest

/-- A slop is read as it is written. -/
theorem readSlop_numeral (slop : UInt32) {rest : List Char}
    (hrest : ∀ c ∈ rest.head?, isNumeral c = false) :
    readSlop ('~' :: numeral slop ++ rest) = .ok (slop, rest) :=
  readOptional_numeral .slop 0 slop hrest

/-- A paired text is read back from between its quotes. -/
theorem readQuoted_of_paired {raw : List Char} (h : Paired raw) (rest : List Char) :
    readQuoted (raw ++ '"' :: rest) = some (raw, rest) := by
  induction h with
  | nil =>
    rw [List.nil_append, readQuoted.eq_def]
    simp
  | @plain c s hc hs ih =>
    simp only [isPlain, Bool.not_eq_true', Bool.or_eq_false_iff, decide_eq_false_iff_not] at hc
    rw [List.cons_append, readQuoted.eq_def]
    simp [hc.1, hc.2, ih]
  | @escaped c s hs ih =>
    rw [List.cons_append, List.cons_append, readQuoted.eq_def]
    simp [ih]

/-- A phrase is read back with its slop. -/
theorem readPhrase_spelled (field : String) {raw : List Char} (hraw : Paired raw) (slop : UInt32)
    {s rest : List Char} (hrest : EndsStart rest) :
    readPhrase Expression.builder field s (raw ++ '"' :: '~' :: (numeral slop ++ rest)) =
      pure (.phrase field (String.ofList raw) slop, rest) := by
  have hslop := readSlop_numeral slop hrest.isNumeral
  rw [readPhrase_builder, readQuoted_of_paired hraw]
  simp only [List.cons_append] at hslop
  simp only [hslop]
  rfl

/-- A text that can stand in quotes as a bound: not empty, not a lone star and without a quote. -/
structure IsBound (text : String) : Prop where
  ne_empty : text ≠ ""
  ne_star : text ≠ "*"
  no_quote : '"' ∉ text.toList

/-- A bound as it is written: a text in quotes, a star for an open side. -/
def boundText : Option String → List Char
  | none => ['*']
  | some text => '"' :: text.toList ++ ['"']

/-- A lone star is an open side. -/
theorem readBound_star {rest : List Char} (hrest : ∀ c ∈ rest.head?, isBareBound c = false) :
    readBound (boundText none ++ rest) = .ok (none, rest) := by
  have hstar : ∀ c ∈ ['*'], isBareBound c = true := by
    intro c hc
    obtain rfl := List.mem_singleton.mp hc
    rfl
  have htake := takeWhile_append_stop hstar hrest
  have hdrop := dropWhile_append_stop hstar hrest
  simp only [List.singleton_append] at htake hdrop
  simp only [boundText, List.singleton_append, readBound, htake, hdrop]
  rfl

/-- A text in quotes stands for the bound that it would stand for without them. -/
theorem readBound_inQuotes {text : String} (hempty : text ≠ "") (hquote : '"' ∉ text.toList)
    (rest : List Char) :
    readBound (boundText (some text) ++ rest) = .ok (boundOf text.toList, rest) := by
  have hinside : ∀ c ∈ text.toList, (decide (c ≠ '"')) = true := by
    intro c hc
    have hne : c ≠ '"' := fun e => hquote (e ▸ hc)
    simpa using hne
  have hstop : ∀ c ∈ ('"' :: rest).head?, (decide (c ≠ '"')) = false := by
    intro c hc
    obtain rfl := Option.some.inj hc
    rfl
  have htake := takeWhile_append_stop hinside hstop
  have hdrop := dropWhile_append_stop hinside hstop
  have hshape : boundText (some text) ++ rest = '"' :: (text.toList ++ '"' :: rest) := by
    simp [boundText]
  have hnonempty : text.toList.isEmpty = false := by simpa using hempty
  simp only [hshape, readBound, htake, hdrop, hnonempty, Bool.false_eq_true, if_false]

/-- A bound is read back. -/
theorem readBound_boundText {bound : Option String} (h : ∀ text ∈ bound, IsBound text)
    {rest : List Char} (hrest : ∀ c ∈ rest.head?, isBareBound c = false) :
    readBound (boundText bound ++ rest) = .ok (bound, rest) := by
  cases bound with
  | none => exact readBound_star hrest
  | some text =>
    obtain ⟨hempty, hstar, hquote⟩ := h text rfl
    have hlone : text.toList ≠ ['*'] := fun e => hstar (String.toList_injective e)
    rw [readBound_inQuotes hempty hquote, boundOf, if_neg hlone, String.ofList_toList]

/-- The two brackets of an interval, each by whether its side includes the bound. -/
def openBracket (includes : Bool) : Char := if includes then '[' else '{'

def closeBracket (includes : Bool) : Char := if includes then ']' else '}'

/-- What stands in the brackets of an interval. -/
def intervalText (i : Interval) : List Char :=
  boundText i.lower ++ ' ' :: 'T' :: 'O' :: ' ' :: boundText i.upper

/-- No blank is skipped before a bound. -/
theorem skipBlanks_boundText (bound : Option String) (rest : List Char) :
    skipBlanks (boundText bound ++ rest) = boundText bound ++ rest := by
  cases bound <;> rfl

/-- Two bounds with `TO` between them and a bracket behind them are an interval. -/
theorem readInterval_of_bounds {includesLower includesUpper : Bool}
    {inside first second third rest : List Char} {lower upper : Option String}
    (hlower : readBound (skipBlanks inside) = .ok (lower, first))
    (hto : keyword? ['T', 'O'] (skipBlanks first) = some second)
    (hupper : readBound (skipBlanks second) = .ok (upper, third))
    (hclose : skipBlanks third = closeBracket includesUpper :: rest) (s : List Char) :
    readInterval includesLower s inside =
      .ok ({ lower, upper, includesLower, includesUpper }, rest) := by
  simp only [readInterval, hlower, ok_bind, hto, hupper, hclose]
  cases includesUpper <;> rfl

/-- An interval is read back. -/
theorem readInterval_intervalText {i : Interval} (hlower : ∀ text ∈ i.lower, IsBound text)
    (hupper : ∀ text ∈ i.upper, IsBound text) (s rest : List Char) :
    readInterval i.includesLower s
      (intervalText i ++ closeBracket i.includesUpper :: rest) = .ok (i, rest) := by
  have hclose : ∀ c ∈ (closeBracket i.includesUpper :: rest).head?, isBareBound c = false := by
    intro c hc
    obtain rfl := Option.some.inj hc
    cases i.includesUpper <;> rfl
  have hgap : ∀ t, ∀ c ∈ (' ' :: t : List Char).head?, isBareBound c = false := by
    intro t c hc
    obtain rfl := Option.some.inj hc
    rfl
  have hshape : intervalText i ++ closeBracket i.includesUpper :: rest =
      boundText i.lower ++ ' ' :: 'T' :: 'O' :: ' ' ::
        (boundText i.upper ++ closeBracket i.includesUpper :: rest) := by
    simp [intervalText]
  have hfirst := readBound_boundText hlower
    (hgap ('T' :: 'O' :: ' ' :: (boundText i.upper ++ closeBracket i.includesUpper :: rest)))
  have hto : ∀ t, keyword? ['T', 'O'] (skipBlanks (' ' :: 'T' :: 'O' :: ' ' :: t)) =
      some (' ' :: t) := fun t => rfl
  have hblank : ∀ t, skipBlanks (' ' :: t) = skipBlanks t := fun t => rfl
  have hbracket : skipBlanks (closeBracket i.includesUpper :: rest) =
      closeBracket i.includesUpper :: rest := by
    cases i.includesUpper <;> rfl
  rw [← skipBlanks_boundText] at hfirst
  have hsecond := readBound_boundText hupper hclose
  rw [← skipBlanks_boundText, ← hblank] at hsecond
  rw [hshape, readInterval_of_bounds hfirst (hto _) hsecond hbracket]

section

variable (d : Dialect) (below : Option (Primary Id Expression)) (field : String)
  {letters : List Letter} (hletters : letters ≠ []) (h : ∀ l ∈ letters, l.isReadable = true)

include hletters h

/-- A written word does not start as a group, a phrase or a range does. -/
theorem readStart_written (rest : List Char) :
    readStart Expression.builder d below field (letters.flatMap Letter.written ++ rest) =
      readWordClause Expression.builder d below field
        (letters.flatMap Letter.written ++ rest) := by
  cases letters with
  | nil => exact absurd rfl hletters
  | cons l letters =>
    cases l with
    | escaped c => rfl
    | plain c =>
      have hc := h _ List.mem_cons_self
      simp only [Letter.isReadable, Bool.and_eq_true, Bool.not_eq_true', endsWord,
        Bool.or_eq_false_iff] at hc
      have hne : ∀ special, isSpecial special = true → ∀ s t : List Char,
          c :: s ≠ special :: t := by
        rintro special hspecial s t heq
        obtain ⟨rfl, -⟩ := List.cons.inj heq
        rw [hspecial] at hc
        cases hc.2.2
      simp only [List.flatMap_cons, Letter.written, List.cons_append]
      unfold readStart
      split
      next heq => exact absurd heq (hne '(' rfl _ _)
      next heq => exact absurd heq (hne '"' rfl _ _)
      next heq => exact absurd heq (hne '[' rfl _ _)
      next heq => exact absurd heq (hne '{' rfl _ _)
      next => rfl

/-- A written word can stand after the name of a field. -/
theorem lacksValue_written (rest : List Char) :
    lacksValue (letters.flatMap Letter.written ++ rest) = false := by
  cases letters with
  | nil => exact absurd rfl hletters
  | cons l letters =>
    cases l with
    | escaped c => rfl
    | plain c =>
      have hc := h _ List.mem_cons_self
      simp only [Letter.isReadable, Bool.and_eq_true, Bool.not_eq_true', endsWord,
        Bool.or_eq_false_iff] at hc
      exact hc.2.1

/-- A written name with a colon after it is the field of the clause that follows. -/
theorem readWordClause_field (hwild : letters.any Letter.isWild = false) (value : List Char) :
    readWordClause Expression.builder d below field
        (letters.flatMap Letter.written ++ ':' :: value) =
      readFieldValue below (String.ofList (letters.map Letter.char))
        (letters.flatMap Letter.written ++ ':' :: value) value := by
  have hword := readWord_written h (endsWord_cons (c := ':') rfl value)
  simp only [readWordClause, hword, hwild, List.isEmpty_eq_false_iff.mpr hletters,
    Bool.false_eq_true, if_false]

/-- A written word with a tilde and a number after it is a fuzzy term. -/
theorem readWordClause_fuzzy (edits : UInt32) {rest : List Char} (hrest : EndsStart rest) :
    readWordClause Expression.builder d below field
        (letters.flatMap Letter.written ++ '~' :: (numeral edits ++ rest)) =
      pure (.multiTerm field (.fuzzy (String.ofList (letters.map Letter.char)) edits), rest) := by
  have hword := readWord_written h (endsWord_cons (c := '~') rfl (numeral edits ++ rest))
  have hedits := readOptional_numeral .editDistance d.fuzzyMaxEdits edits hrest.isNumeral
  simp only [readWordClause, hword, List.isEmpty_eq_false_iff.mpr hletters, Bool.false_eq_true,
    if_false]
  rw [hedits]
  rfl

/-- A written word with a wildcard is a pattern. -/
theorem readWordClause_wildcard (hwild : letters.any Letter.isWild = true) {rest : List Char}
    (hrest : EndsStart rest) :
    readWordClause Expression.builder d below field (letters.flatMap Letter.written ++ rest) =
      pure (.multiTerm field (.wildcard (String.ofList (letters.flatMap Letter.written))),
        rest) := by
  have hword := readWord_written h hrest.endsWord
  simp only [readWordClause, hword, hwild, List.isEmpty_eq_false_iff.mpr hletters,
    Bool.false_eq_true, if_false]
  split
  next hcolon => cases hcolon
  next htilde => exact absurd rfl hrest.ne_colon_and_ne_tilde.2
  next => rfl
  next heq _ _ => cases heq

/-- A written word without wildcards is a term. -/
theorem readWordClause_term (hwild : letters.any Letter.isWild = false) {rest : List Char}
    (hrest : EndsStart rest) :
    readWordClause Expression.builder d below field (letters.flatMap Letter.written ++ rest) =
      pure (.term field (String.ofList (letters.map Letter.char)), rest) := by
  have hword := readWord_written h hrest.endsWord
  simp only [readWordClause, hword, hwild, List.isEmpty_eq_false_iff.mpr hletters,
    Bool.false_eq_true, if_false]
  split
  next hcolon => exact absurd rfl hrest.ne_colon_and_ne_tilde.1
  next htilde => exact absurd rfl hrest.ne_colon_and_ne_tilde.2
  next heq _ => cases heq
  next => rfl

end

section

variable (d : Dialect) (levels : Nat) (field : String)

/-- A clause is read by its start, whatever levels may be opened below. -/
theorem exists_readStart : ∃ below,
    readPrimary Expression.builder d levels = readStart Expression.builder d below := by
  cases levels with
  | zero => exact ⟨none, rfl⟩
  | succ levels => exact ⟨some (readPrimary Expression.builder d levels), rfl⟩

/-- An escaped text is written letter by letter. -/
theorem escaped_eq_written (text : String) :
    escaped text = (text.toList.map Letter.escaped).flatMap Letter.written := by
  rw [escaped, List.flatMap_map]
  rfl

/-- The letters of an escaped text are readable, mean the text and hold no wildcard. -/
theorem isReadable_escaped (text : String) :
    ∀ l ∈ text.toList.map Letter.escaped, l.isReadable = true := by
  intro l hl
  obtain ⟨c, -, rfl⟩ := List.mem_map.mp hl
  rfl

/-- The letters of an escaped text stand for the text. -/
theorem map_char_escaped (text : String) :
    String.ofList ((text.toList.map Letter.escaped).map Letter.char) = text := by
  have hchar : Letter.char ∘ Letter.escaped = id := rfl
  rw [List.map_map, hchar, List.map_id, String.ofList_toList]

/-- An escaped text has no wildcard. -/
theorem any_isWild_escaped (text : String) :
    (text.toList.map Letter.escaped).any Letter.isWild = false := by
  rw [List.any_map, List.any_eq_false]
  exact fun c _ => Bool.false_ne_true

theorem map_escaped_ne_nil {text : String} (h : text ≠ "") :
    text.toList.map Letter.escaped ≠ [] := by
  simpa using h

/-- What can stand after the name of a field still can with more text after it. -/
theorem lacksValue_append {value : List Char} (h : lacksValue value = false) (rest : List Char) :
    lacksValue (value ++ rest) = false := by
  cases value with
  | nil => cases h
  | cons c value => exact h

/-- A clause after a written name is read one level down, about the field of that name. -/
theorem readPrimary_written {letters : List Letter} (hletters : letters ≠ [])
    (h : ∀ l ∈ letters, l.isReadable = true) (hwild : letters.any Letter.isWild = false)
    {value : List Char} (hvalue : lacksValue value = false) :
    readPrimary Expression.builder d (levels + 1) field
        (letters.flatMap Letter.written ++ ':' :: value) =
      readPrimary Expression.builder d levels (String.ofList (letters.map Letter.char)) value := by
  rw [readPrimary, readStart_written d _ field hletters h,
    readWordClause_field d _ field hletters h hwild, readFieldValue, hvalue]
  rfl

/-- The same of a name in escapes. -/
theorem readPrimary_named {name : String} (hname : name ≠ "") {value : List Char}
    (hvalue : lacksValue value = false) :
    readPrimary Expression.builder d (levels + 1) field (escaped name ++ ':' :: value) =
      readPrimary Expression.builder d levels name value := by
  rw [escaped_eq_written, readPrimary_written d levels field (map_escaped_ne_nil hname)
    (isReadable_escaped name) (any_isWild_escaped name) hvalue, map_char_escaped]

/-- A word in escapes is a term. -/
theorem readPrimary_word {text : String} (htext : text ≠ "") {rest : List Char}
    (hrest : EndsStart rest) :
    readPrimary Expression.builder d levels field (escaped text ++ rest) =
      pure (.term field text, rest) := by
  obtain ⟨below, hbelow⟩ := exists_readStart d levels
  rw [hbelow, escaped_eq_written,
    readStart_written d _ field (map_escaped_ne_nil htext) (isReadable_escaped text),
    readWordClause_term d _ field (map_escaped_ne_nil htext) (isReadable_escaped text)
      (any_isWild_escaped text) hrest, map_char_escaped]

/-- A word in escapes with a tilde and a number after it is a fuzzy term. -/
theorem readPrimary_fuzzy {text : String} (htext : text ≠ "") (edits : UInt32) {rest : List Char}
    (hrest : EndsStart rest) :
    readPrimary Expression.builder d levels field
        (escaped text ++ '~' :: (numeral edits ++ rest)) =
      pure (.multiTerm field (.fuzzy text edits), rest) := by
  obtain ⟨below, hbelow⟩ := exists_readStart d levels
  rw [hbelow, escaped_eq_written,
    readStart_written d _ field (map_escaped_ne_nil htext) (isReadable_escaped text),
    readWordClause_fuzzy d _ field (map_escaped_ne_nil htext) (isReadable_escaped text) edits
      hrest, map_char_escaped]

/-- A word with a wildcard is a pattern. -/
theorem readPrimary_wildcard {letters : List Letter} (h : ∀ l ∈ letters, l.isReadable = true)
    (hwild : letters.any Letter.isWild = true) {rest : List Char} (hrest : EndsStart rest) :
    readPrimary Expression.builder d levels field (letters.flatMap Letter.written ++ rest) =
      pure (.multiTerm field (.wildcard (String.ofList (letters.flatMap Letter.written))),
        rest) := by
  have hletters : letters ≠ [] := by
    rintro rfl
    cases hwild
  obtain ⟨below, hbelow⟩ := exists_readStart d levels
  rw [hbelow, readStart_written d _ field hletters h,
    readWordClause_wildcard d _ field hletters h hwild hrest]

/-- An interval in its brackets is a range. -/
theorem readPrimary_range {i : Interval} (hlower : ∀ text ∈ i.lower, IsBound text)
    (hupper : ∀ text ∈ i.upper, IsBound text) (rest : List Char) :
    readPrimary Expression.builder d levels field
        (openBracket i.includesLower ::
          (intervalText i ++ closeBracket i.includesUpper :: rest)) =
      pure (.multiTerm field (.range i), rest) := by
  obtain ⟨below, hbelow⟩ := exists_readStart d levels
  have hread : ∀ s, readRange Expression.builder field i.includesLower s
      (intervalText i ++ closeBracket i.includesUpper :: rest) =
      pure (.multiTerm field (.range i), rest) := by
    intro s
    rw [readRange_builder, readInterval_intervalText hlower hupper]
    rfl
  rw [hbelow]
  cases hincludes : i.includesLower with
  | true =>
    rw [hincludes] at hread
    exact hread _
  | false =>
    rw [hincludes] at hread
    exact hread _

/-- A quoted text with its slop is a phrase. -/
theorem readPrimary_phrase {raw : List Char} (hraw : Paired raw) (slop : UInt32)
    {rest : List Char} (hrest : EndsStart rest) :
    readPrimary Expression.builder d levels field
        ('"' :: (raw ++ '"' :: '~' :: (numeral slop ++ rest))) =
      pure (.phrase field (String.ofList raw) slop, rest) := by
  obtain ⟨below, hbelow⟩ := exists_readStart d levels
  rw [hbelow]
  exact readPhrase_spelled field hraw slop hrest

/-- A level in parentheses is read one level down. -/
theorem readPrimary_group {inside rest : List Char} {e : Expression}
    (h : readLevel Expression.builder d.operator (readPrimary Expression.builder d levels) field
      inside = pure (e, ')' :: rest)) :
    readPrimary Expression.builder d (levels + 1) field ('(' :: inside) = pure (e, rest) := by
  have hgroup : readGroup Expression.builder d.operator
      (some (readPrimary Expression.builder d levels)) field ('(' :: inside) inside =
      pure (e, rest) := by
    simp only [readGroup, h, pure_bind]
  exact hgroup

end

end ProximityQuery
