import Mathlib
import ProximityQuery.Proofs.Spelling

/-!
# Texts that go on

What a reader makes of a text it makes of the same text with more behind it, as long as the text
does not end inside an escape and what is behind it starts with a blank or a closing parenthesis.
Only at the end of the text may the two readings part: a level goes on with what is behind it,
and a keyword needs something that frees it.
-/

namespace ProximityQuery

open Grammar

/-- The number of backslashes at the end of a text. -/
def trailingBackslashes (s : List Char) : Nat :=
  (s.reverse.takeWhile (· = '\\')).length

/-- Whether the backslashes at the end of a text escape one another, so that none of them takes what
is behind the text. -/
def EscapesClosed (s : List Char) : Prop :=
  Even (trailingBackslashes s)

instance (s : List Char) : Decidable (EscapesClosed s) :=
  inferInstanceAs (Decidable (Even (trailingBackslashes s)))

/-- Only the backslashes behind the last other character count. -/
theorem trailingBackslashes_append_cons (before : List Char) {c : Char} (hc : c ≠ '\\')
    (s : List Char) : trailingBackslashes (before ++ c :: s) = trailingBackslashes s := by
  have hsplit : (before ++ c :: s).reverse = s.reverse ++ c :: before.reverse := by simp
  rw [trailingBackslashes, trailingBackslashes, hsplit, List.takeWhile_append]
  split
  next h => simpa [hc] using h.symm
  next => rfl

/-- What stands before a character that is no backslash does not matter. -/
theorem escapesClosed_append_cons (before : List Char) {c : Char} (hc : c ≠ '\\') (s : List Char) :
    EscapesClosed (before ++ c :: s) ↔ EscapesClosed s := by
  rw [EscapesClosed, trailingBackslashes_append_cons before hc, EscapesClosed]

/-- No escape is open in the empty text. -/
theorem escapesClosed_nil : EscapesClosed [] := ⟨0, rfl⟩

/-- A pair of a backslash and a character leaves no escape open. -/
theorem escapesClosed_escaped {c : Char} {s : List Char} :
    EscapesClosed ('\\' :: c :: s) ↔ EscapesClosed s := by
  by_cases hall : ∀ d ∈ c :: s, d = '\\'
  · -- there are two more backslashes at the end, or nothing else
    obtain ⟨rfl, hs⟩ := List.forall_mem_cons.mp hall
    have hcount : ∀ t : List Char, (∀ d ∈ t, d = '\\') → trailingBackslashes t = t.length := by
      intro t ht
      rw [trailingBackslashes, List.takeWhile_eq_self_iff.mpr (by simpa using ht),
        List.length_reverse]
    have hlong := hcount ('\\' :: '\\' :: s) (by simpa using hs)
    rw [EscapesClosed, EscapesClosed, hlong, hcount s hs]
    simp [Nat.even_add_one]
  · obtain ⟨d, hd, hne⟩ : ∃ d ∈ c :: s, d ≠ '\\' := by
      push Not at hall
      exact hall
    obtain ⟨before, after, hsplit⟩ := List.append_of_mem hd
    cases before with
    | nil =>
      obtain ⟨rfl, rfl⟩ := List.cons.inj hsplit
      exact escapesClosed_append_cons ['\\'] hne s
    | cons e before =>
      obtain ⟨rfl, rfl⟩ := List.cons.inj hsplit
      have hlong := escapesClosed_append_cons ('\\' :: c :: before) hne after
      exact hlong.trans (escapesClosed_append_cons before hne after).symm

/-- The first character that is left is of another class. -/
theorem stops_of_dropWhile_eq_cons {p : Char → Bool} {s rest : List Char} {c : Char}
    (h : s.dropWhile p = c :: rest) : p c = false := by
  have hne : s.dropWhile p ≠ [] := by
    rw [h]
    exact List.cons_ne_nil c rest
  simpa [h] using List.head_dropWhile_not p hne

/-- The scanners leave no escape open. -/
theorem scanInvariant_escapesClosed : ScanInvariant EscapesClosed fun _ => True where
  nil := escapesClosed_nil
  plain := by
    intro c s hc hs
    have hne : c ≠ '\\' := by
      rintro rfl
      cases hc
    exact (escapesClosed_append_cons [] hne s).mp hs
  escaped := escapesClosed_escaped.mp
  bareBound := by
    intro s hs
    cases hrest : s.dropWhile isBareBound with
    | nil => exact escapesClosed_nil
    | cons c rest =>
      have hc := stops_of_dropWhile_eq_cons hrest
      have hne : c ≠ '\\' := by
        rintro rfl
        cases hc
      have hsplit : s = s.takeWhile isBareBound ++ c :: rest := by
        rw [← hrest, List.takeWhile_append_dropWhile]
      rw [hsplit, escapesClosed_append_cons _ hne] at hs
      exact (escapesClosed_append_cons [] hne rest).mpr hs
  quotedBound := by
    intro inside c rest hs hdrop
    obtain rfl : c = '"' := by simpa using stops_of_dropWhile_eq_cons hdrop
    have hsplit : '"' :: inside = '"' :: inside.takeWhile (· ≠ '"') ++ '"' :: rest := by
      rw [List.cons_append, ← hdrop, List.takeWhile_append_dropWhile]
    rw [hsplit] at hs
    exact (escapesClosed_append_cons _ (by decide) rest).mp hs
  phrase := by
    intro inside raw rest hs hquoted
    rw [eq_append_of_readQuoted hquoted, ← List.cons_append] at hs
    exact ⟨trivial, (escapesClosed_append_cons _ (by decide) rest).mp hs⟩

section

variable {s : List Char} (tail : List Char)

/-- A class of characters that has stopped, or that stops at what is behind the text, takes the
same as from the text alone. -/
theorem takeWhile_append_tail {p : Char → Bool}
    (h : s.dropWhile p = [] → ∀ c ∈ tail.head?, p c = false) :
    (s ++ tail).takeWhile p = s.takeWhile p ∧
      (s ++ tail).dropWhile p = s.dropWhile p ++ tail := by
  have hsplit : s.takeWhile p ++ (s.dropWhile p ++ tail) = s ++ tail := by
    rw [← List.append_assoc, List.takeWhile_append_dropWhile]
  have htake : ∀ c ∈ s.takeWhile p, p c = true := fun c hc => List.mem_takeWhile_imp hc
  have hstop : ∀ c ∈ (s.dropWhile p ++ tail).head?, p c = false := by
    cases hrest : s.dropWhile p with
    | nil => exact h hrest
    | cons c rest =>
      intro d hd
      obtain rfl := Option.some.inj hd
      exact stops_of_dropWhile_eq_cons hrest
  have hfirst := takeWhile_append_stop htake hstop
  have hsecond := dropWhile_append_stop htake hstop
  rw [hsplit] at hfirst hsecond
  exact ⟨hfirst, hsecond⟩

/-- Blanks are skipped as before when something other than blanks stands in front of the tail. -/
theorem skipBlanks_append_tail (h : skipBlanks s ≠ []) :
    skipBlanks (s ++ tail) = skipBlanks s ++ tail :=
  (takeWhile_append_tail tail fun hnil => absurd hnil h).2

/-- A phrase that is closed does not reach into the tail. -/
theorem readQuoted_append_tail {raw rest : List Char} (h : readQuoted s = some (raw, rest)) :
    readQuoted (s ++ tail) = some (raw, rest ++ tail) := by
  have hread := readQuoted_of_paired (paired_of_readQuoted h) (rest ++ tail)
  rw [eq_append_of_readQuoted h, List.append_assoc]
  exact hread

/-- A bound in quotes ends at the next quote, and its backslashes are characters like any other. -/
theorem readBound_quoted (inside : List Char) :
    readBound ('"' :: inside) =
      match inside.dropWhile (· ≠ '"') with
      | [] => .error { cause := .unterminatedBound, unread := '"' :: inside }
      | _ :: rest =>
        if (inside.takeWhile (· ≠ '"')).isEmpty then
          .error { cause := .emptyBound, unread := '"' :: inside }
        else .ok (boundOf (inside.takeWhile (· ≠ '"')), rest) := rfl

/-- A bound without quotes is the longest beginning of the text that can be one. -/
theorem readBound_bare (h : s.head? ≠ some '"') :
    readBound s =
      if (s.takeWhile isBareBound).isEmpty then .error { cause := .emptyBound, unread := s }
      else .ok (boundOf (s.takeWhile isBareBound), s.dropWhile isBareBound) := by
  rw [readBound.eq_def]
  split
  next => exact absurd rfl h
  next => rfl

/-- Nothing is read as a bound where the text has ended. -/
theorem ne_nil_of_readBound {bound : Option String} {rest : List Char}
    (h : readBound s = .ok (bound, rest)) : s ≠ [] := by
  rintro rfl
  cases h

/-- A text of which something is left behind the blanks is not empty. -/
theorem ne_nil_of_skipBlanks (h : skipBlanks s ≠ []) : s ≠ [] := by
  rintro rfl
  exact h rfl

/-- A bound that does not reach the end of the text. -/
theorem readBound_append_tail {bound : Option String} {rest : List Char}
    (h : readBound s = .ok (bound, rest)) (hne : rest ≠ []) :
    readBound (s ++ tail) = .ok (bound, rest ++ tail) := by
  by_cases hquote : s.head? = some '"'
  · obtain ⟨inside, rfl⟩ := List.head?_eq_some_iff.mp hquote
    rw [readBound_quoted] at h
    rw [List.cons_append, readBound_quoted]
    split at h
    · cases h
    next c rest' hdrop =>
      obtain ⟨htake, hlong⟩ := takeWhile_append_tail tail (s := inside)
        (p := (· ≠ '"')) fun hnil => by
          rw [hdrop] at hnil
          cases hnil
      rw [htake, hlong, hdrop]
      split at h
      · cases h
      next hempty =>
        obtain ⟨rfl, rfl⟩ := Prod.mk.inj (Except.ok.inj h)
        exact if_neg hempty
  · rw [readBound_bare hquote] at h
    split at h
    · cases h
    next hempty =>
      obtain ⟨rfl, rfl⟩ := Prod.mk.inj (Except.ok.inj h)
      obtain ⟨htake, hlong⟩ := takeWhile_append_tail tail fun hnil => absurd hnil hne
      have hstart : (s ++ tail).head? ≠ some '"' := by
        cases s with
        | nil => exact absurd rfl hne
        | cons c s => exact hquote
      rw [readBound_bare hstart, htake, hlong, if_neg hempty]

end

/-- Whether a character stands inside a clause: neither a blank nor a closing parenthesis. -/
def isInner (c : Char) : Bool :=
  !(isBlank c || c = ')')

section

variable {tail : List Char} (htail : EndsClause tail) {s : List Char}

include htail

/-- A character that cannot be behind the text belongs to the text. -/
theorem EndsClause.eq_cons_of_append_eq_cons {c : Char} {rest : List Char}
    (hc : isInner c = true) (h : s ++ tail = c :: rest) :
    ∃ s', s = c :: s' ∧ rest = s' ++ tail := by
  cases s with
  | nil =>
    have hend := htail c (by rw [← List.nil_append tail, h]; rfl)
    rw [isInner, Bool.not_eq_true', Bool.or_eq_false_iff, decide_eq_false_iff_not] at hc
    rcases hend with hblank | hclose
    · rw [hblank] at hc
      cases hc.1
    · exact absurd hclose hc.2
  | cons d s =>
    obtain ⟨rfl, rfl⟩ := List.cons.inj h
    exact ⟨s, rfl, rfl⟩

/-- A word without an open escape ends before the tail. -/
theorem EndsClause.readWord_append_tail (hs : EscapesClosed s) :
    readWord (s ++ tail) = ((readWord s).1, (readWord s).2 ++ tail) := by
  fun_induction readWord s with
  | case1 =>
    cases tail with
    | nil => rfl
    | cons c tail => exact readWord_end (htail.endsStart.endsWord c rfl) tail
  | case2 => exact absurd hs (by decide)
  | case3 d s ih =>
    have hread := readWord_escaped d (s ++ tail)
    rw [ih (escapesClosed_escaped.mp hs)] at hread
    exact hread
  | case4 c s hc hend => exact readWord_end hend (s ++ tail)
  | case5 c s hc hend ih =>
    have hread := readWord_plain hc (by simpa using hend) (s ++ tail)
    rw [ih ((escapesClosed_append_cons [] hc s).mp hs)] at hread
    exact hread

/-- A number ends before the tail. -/
theorem EndsClause.readQuantity_append_tail {α : Type} {what : Quantity}
    {value? : List Char → Option α} {x : α} {rest : List Char}
    (h : readQuantity what value? s = .ok (x, rest)) :
    readQuantity what value? (s ++ tail) = .ok (x, rest ++ tail) := by
  obtain ⟨htake, hdrop⟩ := takeWhile_append_tail tail (s := s) (p := isNumeral)
    fun _ => htail.endsStart.isNumeral
  unfold readQuantity at h ⊢
  rw [htake, hdrop]
  split at h
  · obtain ⟨rfl, rfl⟩ := Prod.mk.inj (Except.ok.inj h)
    rfl
  · cases h

/-- The tail is not taken for a digit. -/
theorem EndsClause.startsWithDigit_append_tail :
    startsWithDigit (s ++ tail) = startsWithDigit s := by
  cases s with
  | nil =>
    cases tail with
    | nil => rfl
    | cons c tail =>
      have hc := htail.endsStart.isNumeral c rfl
      rw [isNumeral, Bool.or_eq_false_iff] at hc
      exact hc.1
  | cons c s => rfl

/-- Neither does a number that may be left out reach into the tail. -/
theorem EndsClause.readOptional_append_tail {what : Quantity} {default n : UInt32}
    {rest : List Char} (h : readOptional what default s = .ok (n, rest)) :
    readOptional what default (s ++ tail) = .ok (n, rest ++ tail) := by
  unfold readOptional at h ⊢
  rw [htail.startsWithDigit_append_tail]
  split at h
  next hdigit => exact (if_pos hdigit).trans (htail.readQuantity_append_tail h)
  next hdigit =>
    obtain ⟨rfl, rfl⟩ := Prod.mk.inj (Except.ok.inj h)
    exact if_neg hdigit

/-- A slop ends before the tail. -/
theorem EndsClause.readSlop_append_tail {n : UInt32} {rest : List Char}
    (h : readSlop s = .ok (n, rest)) : readSlop (s ++ tail) = .ok (n, rest ++ tail) := by
  cases s with
  | nil =>
    obtain ⟨rfl, rfl⟩ := Prod.mk.inj (Except.ok.inj h)
    cases tail with
    | nil => rfl
    | cons c tail => exact if_neg htail.endsStart.ne_colon_and_ne_tilde.2
  | cons c s =>
    rw [List.cons_append, readSlop]
    rw [readSlop] at h
    split at h
    next hc => exact (if_pos hc).trans (htail.readOptional_append_tail h)
    next hc =>
      obtain ⟨rfl, rfl⟩ := Prod.mk.inj (Except.ok.inj h)
      exact if_neg hc

/-- What is behind a text completes no word in it. -/
theorem EndsClause.after?_append_tail {word : List Char}
    (hword : word.all isInner = true) :
    after? word (s ++ tail) = (after? word s).map (· ++ tail) := by
  induction word generalizing s with
  | nil => rfl
  | cons w word ih =>
    rw [List.all_cons, Bool.and_eq_true] at hword
    obtain ⟨hw, hrest⟩ := hword
    cases s with
    | nil =>
      cases tail with
      | nil => rfl
      | cons c tail =>
        have hne : w ≠ c := by
          rintro rfl
          obtain ⟨s', hnil, -⟩ := htail.eq_cons_of_append_eq_cons (s := []) hw rfl
          cases hnil
        simp [after?, hne]
    | cons c s =>
      rw [List.cons_append, after?, after?, ih hrest]
      split <;> rfl

/-- A keyword at the end of a text stands alone if what is behind the text frees it. -/
theorem EndsClause.keyword?_append_tail (word : List Char)
    (hword : word.all isInner = true)
    (hend : s = word → freesKeyword tail = true) :
    keyword? word (s ++ tail) = (keyword? word s).map (· ++ tail) := by
  rw [keyword?, keyword?, htail.after?_append_tail hword]
  cases hafter : after? word s with
  | none => rfl
  | some rest =>
    have hfrees : freesKeyword (rest ++ tail) = freesKeyword rest := by
      cases rest with
      | nil =>
        have hs := eq_append_of_after? hafter
        rw [List.append_nil] at hs
        exact hend hs
      | cons c rest => rfl
    rw [Option.map_some, Option.filter_some, Option.filter_some, hfrees]
    split <;> rfl

omit htail in
/-- Away from the doubled signs a conjunction is a word. -/
theorem readConjunction_word (hand : ∀ rest, s ≠ '&' :: '&' :: rest)
    (hor : ∀ rest, s ≠ '|' :: '|' :: rest) :
    readConjunction s =
      match keyword? ['A', 'N', 'D'] s with
      | some rest => (some .and, rest)
      | none =>
        match keyword? ['O', 'R'] s with
        | some rest => (some .or, rest)
        | none => (none, s) := by
  rw [readConjunction.eq_def]
  split
  next rest => exact absurd rfl (hand rest)
  next rest => exact absurd rfl (hor rest)
  next => rfl

omit htail in
/-- Away from the signs a modifier is a word. -/
theorem readModifier_word (hplus : ∀ rest, s ≠ '+' :: rest) (hminus : ∀ rest, s ≠ '-' :: rest)
    (hbang : ∀ rest, s ≠ '!' :: rest) :
    readModifier s =
      match keyword? ['N', 'O', 'T'] s with
      | some rest => (some .prohibited, rest)
      | none => (none, s) := by
  rw [readModifier.eq_def]
  split
  next rest => exact absurd rfl (hplus rest)
  next rest => exact absurd rfl (hminus rest)
  next rest => exact absurd rfl (hbang rest)
  next => rfl

/-- The tail does not begin with a character of a clause, so it brings none to the head
of a text. -/
theorem EndsClause.append_ne_cons {c : Char} (hc : isInner c = true)
    (h : ∀ rest, s ≠ c :: rest) (rest : List Char) : s ++ tail ≠ c :: rest := by
  intro heq
  obtain ⟨s', hs, -⟩ := htail.eq_cons_of_append_eq_cons hc heq
  exact h s' hs

/-- And so it does not complete a doubled character either. -/
theorem EndsClause.append_ne_cons_cons {c : Char} (hc : isInner c = true)
    (h : ∀ rest, s ≠ c :: c :: rest) (rest : List Char) : s ++ tail ≠ c :: c :: rest := by
  intro heq
  obtain ⟨s', rfl, hrest⟩ := htail.eq_cons_of_append_eq_cons hc heq
  obtain ⟨s'', rfl, -⟩ := htail.eq_cons_of_append_eq_cons hc hrest.symm
  exact h s'' rfl

/-- A conjunction that does not reach the end of the text, or none. -/
theorem EndsClause.readConjunction_append_tail
    (hne : (readConjunction s).1.isSome → (readConjunction s).2 ≠ []) :
    readConjunction (s ++ tail) = ((readConjunction s).1, (readConjunction s).2 ++ tail) := by
  by_cases hand : ∃ rest, s = '&' :: '&' :: rest
  · obtain ⟨rest, rfl⟩ := hand
    rfl
  by_cases hor : ∃ rest, s = '|' :: '|' :: rest
  · obtain ⟨rest, rfl⟩ := hor
    rfl
  push Not at hand hor
  have handword := htail.keyword?_append_tail (s := s) ['A', 'N', 'D'] rfl (by
    rintro rfl
    exact absurd rfl (hne rfl))
  have horword := htail.keyword?_append_tail (s := s) ['O', 'R'] rfl (by
    rintro rfl
    exact absurd rfl (hne rfl))
  rw [readConjunction_word hand hor,
    readConjunction_word (htail.append_ne_cons_cons rfl hand)
      (htail.append_ne_cons_cons rfl hor), handword, horword]
  cases keyword? ['A', 'N', 'D'] s with
  | some rest => rfl
  | none =>
    cases keyword? ['O', 'R'] s with
    | some rest => rfl
    | none => rfl

/-- A sign that does not reach the end of the text, or none. -/
theorem EndsClause.readModifier_append_tail
    (hne : (readModifier s).1.isSome → (readModifier s).2 ≠ []) :
    readModifier (s ++ tail) = ((readModifier s).1, (readModifier s).2 ++ tail) := by
  by_cases hplus : ∃ rest, s = '+' :: rest
  · obtain ⟨rest, rfl⟩ := hplus
    rfl
  by_cases hminus : ∃ rest, s = '-' :: rest
  · obtain ⟨rest, rfl⟩ := hminus
    rfl
  by_cases hbang : ∃ rest, s = '!' :: rest
  · obtain ⟨rest, rfl⟩ := hbang
    rfl
  push Not at hplus hminus hbang
  have hword := htail.keyword?_append_tail (s := s) ['N', 'O', 'T'] rfl (by
    rintro rfl
    exact absurd rfl (hne rfl))
  rw [readModifier_word hplus hminus hbang,
    readModifier_word (htail.append_ne_cons rfl hplus)
      (htail.append_ne_cons rfl hminus) (htail.append_ne_cons rfl hbang), hword]
  cases keyword? ['N', 'O', 'T'] s with
  | some rest => rfl
  | none => rfl

/-- An interval is closed by a bracket, so it does not reach the end of the text. -/
theorem EndsClause.readInterval_append_tail {includesLower : Bool} {start inside rest : List Char}
    {i : Interval} (h : readInterval includesLower start inside = .ok (i, rest))
    (start' : List Char) :
    readInterval includesLower start' (inside ++ tail) = .ok (i, rest ++ tail) := by
  obtain ⟨⟨lower, r⟩, hlower, h⟩ := exists_ok_of_bind_eq_ok h
  dsimp only at h
  split at h
  next r' hto =>
    obtain ⟨⟨upper, r''⟩, hupper, h⟩ := exists_ok_of_bind_eq_ok h
    dsimp only at h
    have hclose : ∃ c, skipBlanks r'' = c :: rest := by
      split at h
      next hclose => exact ⟨']', rest_eq_of_ok_eq h ▸ hclose⟩
      next hclose => exact ⟨'}', rest_eq_of_ok_eq h ▸ hclose⟩
      next => cases h
    obtain ⟨c, hclose⟩ := hclose
    -- each of the texts that are read one after the other has something in it
    have hr'' : skipBlanks r'' ≠ [] := by
      rw [hclose]
      exact List.cons_ne_nil c rest
    have hr' := ne_nil_of_readBound hupper
    have hr : skipBlanks r ≠ [] := by
      intro hnil
      rw [hnil] at hto
      cases hto
    have hinside := ne_nil_of_readBound hlower
    have hkeyword := htail.keyword?_append_tail (s := skipBlanks r) ['T', 'O'] rfl (by
      intro heq
      rw [heq] at hto
      obtain rfl := Option.some.inj hto
      exact absurd rfl hr')
    rw [hto] at hkeyword
    have hfirst := readBound_append_tail tail hlower (ne_nil_of_skipBlanks hr)
    have hsecond := readBound_append_tail tail hupper (ne_nil_of_skipBlanks hr'')
    simp only [readInterval, skipBlanks_append_tail tail hinside, hfirst, ok_bind,
      skipBlanks_append_tail tail hr, hkeyword, Option.map_some, skipBlanks_append_tail tail hr', hsecond,
      skipBlanks_append_tail tail hr'', hclose]
    rw [hclose] at h
    split at h
    next heq =>
      obtain ⟨rfl, rfl⟩ := List.cons.inj heq
      obtain ⟨rfl, -⟩ := Prod.mk.inj (Except.ok.inj h)
      rfl
    next heq =>
      obtain ⟨rfl, rfl⟩ := List.cons.inj heq
      obtain ⟨rfl, -⟩ := Prod.mk.inj (Except.ok.inj h)
      rfl
    next => cases h
  · cases h

end

end ProximityQuery
