import ProximityQuery.Proofs.Continuation
import ProximityQuery.Proofs.Cursor
import ProximityQuery.Proofs.Quotation

/-!
# Words, numbers, phrases and ranges by position

The loops of the scanner go on character by character, two at a time past a backslash, and some of
their steps read nothing. Each is given a number of rounds, and one more than there are characters
is enough for it on any text: also on one that ends in a backslash, or in which no quote closes what
a quote has opened.
-/

namespace ProximityQuery

open Grammar

/-- The raw text of a phrase and its slop; the phrase is at the head of `s`, and its opening quote
has the text `inside` after it. -/
def Grammar.readQuotation (s inside : List Char) :
    Except Failure ((List Char × UInt32) × List Char) :=
  match readQuoted inside with
  | none => .error { cause := .unterminatedPhrase, unread := s }
  | some (raw, rest) => do
    let (slop, rest) ← readSlop rest
    pure ((raw, slop), rest)

/-- The text of a bound. -/
def Grammar.readBoundText (s : List Char) : Except Failure (List Char × List Char) :=
  match s with
  | '"' :: inside =>
    match inside.dropWhile (· ≠ '"') with
    | [] => .error { cause := .unterminatedBound, unread := s }
    | _ :: rest => .ok (inside.takeWhile (· ≠ '"'), rest)
  | _ => .ok (s.takeWhile isBareBound, s.dropWhile isBareBound)

/-- A bound in quotes ends at the next quote. -/
theorem readBoundText_quoted (inside : List Char) :
    readBoundText ('"' :: inside) =
      match after? ['"'] (inside.dropWhile (· ≠ '"')) with
      | some rest => .ok (inside.takeWhile (· ≠ '"'), rest)
      | none => .error { cause := .unterminatedBound, unread := '"' :: inside } := by
  rw [readBoundText]
  cases hdrop : inside.dropWhile (· ≠ '"') with
  | nil => rfl
  | cons c rest =>
    obtain rfl : c = '"' := by simpa using stops_of_dropWhile_eq_cons hdrop
    rfl

/-- A bound without quotes is the longest beginning of the text that can be one. -/
theorem readBoundText_bare {s : List Char} (h : s.head? ≠ some '"') :
    readBoundText s = .ok (s.takeWhile isBareBound, s.dropWhile isBareBound) := by
  rw [readBoundText.eq_def]
  split
  next => exact absurd rfl h
  next => rfl

/-- A bound is read by its text, which may not be empty. -/
theorem readBound_eq (s : List Char) :
    readBound s = readBoundText s >>= fun (text, rest) =>
      if text.isEmpty then .error { cause := .emptyBound, unread := s }
      else .ok (boundOf text, rest) := by
  by_cases hquote : s.head? = some '"'
  · obtain ⟨inside, rfl⟩ := List.head?_eq_some_iff.mp hquote
    rw [readBound_quoted, readBoundText]
    cases inside.dropWhile (· ≠ '"') <;> rfl
  · rw [readBound_bare hquote, readBoundText_bare hquote]
    rfl

namespace Scan

section

variable (whole : List Char)

/-- Goes past the characters of a class. -/
def pass (p : Char → Bool) : (rounds : Nat) → Scan Unit
  | 0 => throw .unfinished
  | rounds + 1 => do
    match ← peek whole with
    | some c =>
      if p c then
        advance whole
        pass p rounds
      else
        pure ()
    | none => pure ()

/-- Reads the letters of a word. -/
def word : (rounds : Nat) → Scan (List Letter)
  | 0 => throw .unfinished
  | rounds + 1 => do
    match ← peek whole with
    | none => pure []
    | some c =>
      if c = '\\' then
        advance whole
        match ← peek whole with
        | none => word rounds
        | some d =>
          advance whole
          return .escaped d :: (← word rounds)
      else if endsWord c then
        pure []
      else
        advance whole
        return .plain c :: (← word rounds)

/-- Goes to the quote that closes a phrase; the phrase starts at `start`. -/
def quoted (start : Nat) : (rounds : Nat) → Scan Unit
  | 0 => throw .unfinished
  | rounds + 1 => do
    match ← peek whole with
    | none => malformedAt start .unterminatedPhrase
    | some c =>
      if c = '"' then
        pure ()
      else if c = '\\' then
        advance whole
        advance whole
        quoted start rounds
      else
        advance whole
        quoted start rounds

end

section

variable {whole s : List Char} {rounds : Nat} (depth : Nat) (hs : s <:+ whole)
  (hrounds : s.length < rounds)

include hs hrounds

/-- A loop goes past all the characters of a class that come next. -/
theorem run_pass (p : Char → Bool) :
    (pass whole p rounds).run (.before whole depth s) =
      .ok ((), .before whole depth (s.dropWhile p)) := by
  induction rounds generalizing s with
  | zero => omega
  | succ rounds ih =>
    rw [pass, run_bind_of_ok (run_peek depth hs)]
    cases s with
    | nil => rfl
    | cons c s =>
      simp only [List.head?_cons]
      by_cases hc : p c = true
      · have hrest := (List.suffix_cons c s).trans hs
        rw [if_pos hc, run_bind_of_ok (run_advance depth hs), List.dropWhile_cons_of_pos hc]
        exact ih hrest (by simpa using hrounds)
      · rw [if_neg hc, List.dropWhile_cons_of_neg hc]
        rfl

/-- The letters of a word are read, also when a backslash at the very end takes no letter. -/
theorem run_word :
    (word whole rounds).run (.before whole depth s) =
      .ok ((readWord s).1, .before whole depth (readWord s).2) := by
  induction rounds generalizing s with
  | zero => omega
  | succ rounds ih =>
    rw [word, run_bind_of_ok (run_peek depth hs)]
    cases s with
    | nil => rfl
    | cons c s =>
      have hrest := (List.suffix_cons c s).trans hs
      simp only [List.head?_cons]
      by_cases hc : c = '\\'
      · subst hc
        rw [if_pos rfl, run_bind_of_ok (run_advance depth hs),
          run_bind_of_ok (run_peek depth hrest)]
        cases s with
        | nil => exact ih hrest (by simpa using hrounds)
        | cons d s =>
          have hbehind := (List.suffix_cons d s).trans hrest
          have hless : s.length < rounds := by
            simp only [List.length_cons] at hrounds
            omega
          simp only [List.head?_cons]
          rw [run_bind_of_ok (run_advance depth hrest), run_bind_of_ok (ih hbehind hless),
            readWord_escaped]
          rfl
      · rw [if_neg hc]
        by_cases hend : endsWord c = true
        · rw [if_pos hend, readWord_end hend]
          rfl
        · rw [if_neg hend, run_bind_of_ok (run_advance depth hs),
            run_bind_of_ok (ih hrest (by simpa using hrounds)),
            readWord_plain hc (by simpa using hend)]
          rfl

/-- The cursor stops before the quote that closes a phrase, or at the end of the text. -/
theorem run_quoted (start : Nat) :
    (quoted whole start rounds).run (.before whole depth s) =
      match readQuoted s with
      | some (_, rest) => .ok ((), .before whole depth ('"' :: rest))
      | none => .error (.malformed { position := start, cause := .unterminatedPhrase }) := by
  induction rounds generalizing s with
  | zero => omega
  | succ rounds ih =>
    rw [quoted, run_bind_of_ok (run_peek depth hs)]
    cases s with
    | nil => rfl
    | cons c s =>
      have hrest := (List.suffix_cons c s).trans hs
      have hless : s.length < rounds := by simpa using hrounds
      simp only [List.head?_cons]
      rw [readQuoted.eq_def]
      by_cases hquote : c = '"'
      · subst hquote
        rfl
      · by_cases hc : c = '\\'
        · subst hc
          simp only [if_neg hquote, if_true]
          rw [run_bind_of_ok (run_advance depth hs)]
          cases s with
          | nil =>
            rw [run_bind_of_ok (run_advance_nil depth)]
            exact ih hrest hless
          | cons d s =>
            have hbehind := (List.suffix_cons d s).trans hrest
            rw [run_bind_of_ok (run_advance depth hrest),
              ih hbehind (Nat.lt_of_succ_lt (by simpa using hless))]
            dsimp only
            cases readQuoted s <;> rfl
        · simp only [if_neg hquote, if_neg hc]
          rw [run_bind_of_ok (run_advance depth hs), ih hrest hless]
          cases readQuoted s <;> rfl

end

section

variable (whole : List Char) (rounds : Nat)

/-- Goes past the colon behind the letters of a word, which names no field if it has wildcards. -/
def colon (letters : List Letter) : Scan Bool :=
  if letters.any Letter.isWild then pure false else consume whole ':'

/-- Goes past blanks. -/
def blanks : Scan Unit :=
  pass whole isBlank rounds

/-- Reads a number. -/
def number {α : Type} (what : Quantity) (value? : List Char → Option α) : Scan α := do
  let start := (← get).position
  pass whole isNumeral rounds
  match value? (← slice whole start) with
  | some x => pure x
  | none => malformedAt start (.invalidNumber what)

/-- Reads a whole number if a digit comes next. -/
def optional (what : Quantity) (default : UInt32) : Scan UInt32 := do
  if (← peek whole).any Char.isDigit then
    number whole rounds what Decimal.uint32?
  else
    pure default

/-- Reads the slop after a phrase. -/
def slop : Scan UInt32 := do
  if ← consume whole '~' then
    optional whole rounds .slop 0
  else
    pure 0

/-- Reads the raw text of a phrase and its slop. -/
def quotation : Scan (List Char × UInt32) := do
  let start := (← get).position
  let _ ← consume whole '"'
  let inside := (← get).position
  quoted whole start rounds
  let raw ← slice whole inside
  let _ ← consume whole '"'
  let slop ← slop whole rounds
  return (raw, slop)

/-- The text of a bound. -/
def boundAsWritten : Scan (List Char) := do
  let start := (← get).position
  if ← consume whole '"' then
    let inside := (← get).position
    pass whole (· ≠ '"') rounds
    let text ← slice whole inside
    if ← consume whole '"' then
      pure text
    else
      malformedAt start .unterminatedBound
  else
    pass whole isBareBound rounds
    slice whole start

/-- Reads a bound. -/
def bound : Scan (Option String) := do
  let start := (← get).position
  let text ← boundAsWritten whole rounds
  if text.isEmpty then
    malformedAt start .emptyBound
  else
    pure (boundOf text)

/-- Reads an interval in its brackets. -/
def interval : Scan Interval := do
  let start := (← get).position
  let includesLower := decide ((← peek whole) = some '[')
  advance whole
  blanks whole rounds
  let lower ← bound whole rounds
  blanks whole rounds
  if ← keyword whole ['T', 'O'] then
    blanks whole rounds
    let upper ← bound whole rounds
    blanks whole rounds
    if ← consume whole ']' then
      return { lower, upper, includesLower, includesUpper := true }
    else if ← consume whole '}' then
      return { lower, upper, includesLower, includesUpper := false }
    else
      malformedAt start .unterminatedRange
  else
    malformedAt (← get).position .missingTo

end

section

variable {whole s : List Char} {rounds : Nat} (depth : Nat) (hrounds : whole.length < rounds)
  (hs : s <:+ whole)

include hrounds hs

/-- Rounds that suffice for a text suffice for the end of it. -/
theorem length_lt_rounds : s.length < rounds :=
  Nat.lt_of_le_of_lt hs.length_le hrounds

/-- Blanks are passed as they are skipped. -/
theorem run_blanks :
    (blanks whole rounds).run (.before whole depth s) =
      .ok ((), .before whole depth (skipBlanks s)) :=
  run_pass depth hs (length_lt_rounds hrounds hs) isBlank

/-- A number is read alike, by its digits between two places. -/
theorem reads_number {α : Type} (what : Quantity) (value? : List Char → Option α) :
    Reads whole depth s (· <:+ s) (number whole rounds what value?)
      (readQuantity what value? s) := by
  have hpass := run_pass depth hs (length_lt_rounds hrounds hs) isNumeral
  have hslice := run_slice depth
    (List.takeWhile_append_dropWhile (p := isNumeral) (l := s)).symm hs
  rw [number, readQuantity]
  refine .get_bind (.step hpass (.step hslice ?_))
  cases value? (s.takeWhile isNumeral) with
  | some x => exact .pure (List.dropWhile_suffix isNumeral)
  | none => exact .malformed _ hs

/-- So is a number that may be left out. -/
theorem reads_optional (what : Quantity) (default : UInt32) :
    Reads whole depth s (· <:+ s) (optional whole rounds what default)
      (readOptional what default s) := by
  have hdigit : s.head?.any Char.isDigit = startsWithDigit s := by cases s <;> rfl
  rw [optional, readOptional]
  refine .step (run_peek depth hs) ?_
  rw [hdigit]
  split
  · exact reads_number depth hrounds hs what Decimal.uint32?
  · exact .pure List.suffix_rfl

/-- A slop is read alike. -/
theorem reads_slop :
    Reads whole depth s (· <:+ s) (slop whole rounds) (readSlop s) := by
  rw [slop]
  refine .ite (takes_consume '~' hs) (fun rest hrest => ?_) fun hnone => ?_
  · obtain rfl := eq_append_of_after? hrest
    have hbehind : rest <:+ '~' :: rest := List.suffix_cons ..
    exact (reads_optional depth hrounds (hbehind.trans hs) .slop 0).imp
      fun t ht => ht.trans hbehind
  · have hread : readSlop s = .ok (0, s) := by
      cases s with
      | nil => rfl
      | cons c s =>
        rw [readSlop]
        split
        next hc =>
          subst hc
          cases hnone
        next => rfl
    rw [hread]
    exact .pure List.suffix_rfl

/-- A bound as it is written is read alike, with quotes or without. -/
theorem reads_boundAsWritten :
    Reads whole depth s (· <:+ s) (boundAsWritten whole rounds) (readBoundText s) := by
  rw [boundAsWritten]
  refine .get_bind (.ite (takes_consume '"' hs) (fun inside hopen => ?_) fun hnone => ?_)
  · obtain rfl := eq_append_of_after? hopen
    have hopen : inside <:+ '"' :: inside := List.suffix_cons ..
    have hinside := hopen.trans hs
    have hpass := run_pass depth hinside (length_lt_rounds hrounds hinside) fun c => c ≠ '"'
    have hslice := run_slice depth
      (List.takeWhile_append_dropWhile (p := fun c => decide (c ≠ '"')) (l := inside)).symm hinside
    have hrest : inside.dropWhile (· ≠ '"') <:+ inside := List.dropWhile_suffix _
    refine .get_bind (.step hpass (.step hslice (.ite (takes_consume '"' (hrest.trans hinside))
      (fun rest hclose => ?_) fun hnone => ?_)))
    · have hbehind : rest <:+ inside.dropWhile (· ≠ '"') :=
        ⟨['"'], (eq_append_of_after? hclose).symm⟩
      rw [List.singleton_append, readBoundText_quoted, hclose]
      exact .pure (hbehind.trans (hrest.trans hopen))
    · rw [List.singleton_append, readBoundText_quoted, hnone]
      exact .malformed _ hs
  · have hquote : s.head? ≠ some '"' := by
      rintro hquote
      obtain ⟨inside, rfl⟩ := List.head?_eq_some_iff.mp hquote
      cases hnone
    have hpass := run_pass depth hs (length_lt_rounds hrounds hs) isBareBound
    have hslice := run_slice depth
      (List.takeWhile_append_dropWhile (p := isBareBound) (l := s)).symm hs
    rw [readBoundText_bare hquote]
    exact .step hpass ⟨hslice, List.dropWhile_suffix _⟩

/-- And so is a bound as it is understood. -/
theorem reads_bound :
    Reads whole depth s (· <:+ s) (bound whole rounds) (readBound s) := by
  rw [bound, readBound_eq]
  refine .get_bind ((reads_boundAsWritten depth hrounds hs).bind fun text rest hrest => ?_)
  dsimp only
  split
  · exact .malformed _ hs
  · exact .pure hrest

end

/-- A word without wildcards takes the colon behind it. -/
theorem takes_colon {whole s : List Char} (letters : List Letter) (hs : s <:+ whole) :
    Takes whole s (colon whole letters)
      (if letters.any Letter.isWild then none else after? [':'] s) := by
  rw [colon]
  split
  · intro depth
    rfl
  · exact takes_consume ':' hs

section

variable {whole : List Char} {rounds : Nat} (depth : Nat) (hrounds : whole.length < rounds)

include hrounds

/-- A phrase is read from its opening quote on, and that quote at least is taken off the text. -/
theorem reads_quotation {inside : List Char} (hs : '"' :: inside <:+ whole) :
    Reads whole depth ('"' :: inside) (· <:+ inside) (quotation whole rounds)
      (readQuotation ('"' :: inside) inside) := by
  have hinside := (List.suffix_cons '"' inside).trans hs
  have hopen := takes_consume '"' hs depth
  have hquoted := run_quoted depth hinside (length_lt_rounds hrounds hinside)
    (Cursor.before whole depth ('"' :: inside)).position
  rw [quotation, readQuotation]
  refine .get_bind (.step hopen (.get_bind ?_))
  cases hread : readQuoted inside with
  | none =>
    rw [hread] at hquoted
    exact ⟨run_bind_of_error hquoted, hs⟩
  | some p =>
    obtain ⟨raw, rest⟩ := p
    obtain rfl := eq_append_of_readQuoted hread
    have hclose : '"' :: rest <:+ raw ++ '"' :: rest := List.suffix_append ..
    have hrest := (List.suffix_cons '"' rest).trans hclose
    rw [hread] at hquoted
    refine .step hquoted (.step (run_slice depth rfl hinside)
      (.step (takes_consume '"' (hclose.trans hinside) depth) ?_))
    exact (reads_slop depth hrounds (hrest.trans hinside)).bind fun n t ht => .pure (ht.trans hrest)

/-- An interval is read from its opening bracket on. -/
theorem reads_interval {c : Char} {inside : List Char} (hs : c :: inside <:+ whole) :
    Reads whole depth (c :: inside) (· <:+ inside) (interval whole rounds)
      (readInterval (c = '[') (c :: inside) inside) := by
  have hinside := (List.suffix_cons c inside).trans hs
  have hsuffix := scanInvariant_suffix inside
  have hopen : decide ((c :: inside).head? = some '[') = decide (c = '[') := by simp
  have hlower := skipBlanks_suffix inside
  rw [interval, readInterval]
  refine .get_bind (.step (run_peek depth hs) ?_)
  rw [hopen]
  refine .step (run_advance depth hs) (.step (run_blanks depth hrounds hinside) ?_)
  refine (reads_bound depth hrounds (hlower.trans hinside)).bind fun lower rest hrest => ?_
  have hrest := hrest.trans hlower
  have hto := (skipBlanks_suffix rest).trans hrest
  have hkeyword := takes_keyword ['T', 'O'] (hto.trans hinside)
  refine .step (run_blanks depth hrounds (hrest.trans hinside))
    (.ite hkeyword (fun behind hkeyword => ?_) fun hnone => ?_)
  · dsimp only
    rw [hkeyword]
    have hbehind := hsuffix.here_keyword? rfl hkeyword hto
    have hupper := (skipBlanks_suffix behind).trans hbehind
    refine .step (run_blanks depth hrounds (hbehind.trans hinside)) ?_
    refine (reads_bound depth hrounds (hupper.trans hinside)).bind fun upper rest hrest => ?_
    have hrest := hrest.trans hupper
    have hclose := (skipBlanks_suffix rest).trans hrest
    refine .step (run_blanks depth hrounds (hrest.trans hinside)) ?_
    dsimp only
    split
    next last hbracket =>
      rw [hbracket] at hclose ⊢
      have hlast := (List.suffix_cons ']' last).trans hclose
      exact .step (takes_consume ']' (hclose.trans hinside) depth) (.pure hlast)
    next last hbracket =>
      rw [hbracket] at hclose ⊢
      have hlast := (List.suffix_cons '}' last).trans hclose
      exact .step (takes_consume ']' (hclose.trans hinside) depth)
        (.step (takes_consume '}' (hclose.trans hinside) depth) (.pure hlast))
    next hsquare hcurly =>
      refine .ite (takes_consume ']' (hclose.trans hinside)) (fun t ht => ?_) fun _ => ?_
      · exact absurd (eq_append_of_after? ht) (hsquare t)
      · refine .ite (takes_consume '}' (hclose.trans hinside)) (fun t ht => ?_) fun _ => ?_
        · exact absurd (eq_append_of_after? ht) (hcurly t)
        · exact .malformed _ hs
  · dsimp only
    rw [hnone]
    exact .get_bind (.malformed _ (hto.trans hinside))

end

end Scan

end ProximityQuery
