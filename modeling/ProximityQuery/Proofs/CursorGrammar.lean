import ProximityQuery.Proofs.CursorChecks

/-!
# Queries by position

The procedures of the grammar, with a cursor in place of the unread text. What they read is what the
grammar reads, so no check of the cursor fails, no text is cut out of bounds or inside a character,
and every malformation stands behind a beginning of the text. Every loop has a number of rounds, and
so has the recursion that goes down from a clause to the clauses of its group and comes back to the
loop of that group; they suffice when they are more than the characters of the text and more than
the levels that may be open.
-/

namespace ProximityQuery

open Grammar

namespace ScanT

variable {m : Type → Type} [Monad m] {α : Type}

section

variable (whole : List Char) (rounds : Nat) (b : Builder m α) (d : Dialect)

/-- Reads a phrase. -/
def phrase (field : String) : ScanT m α :=
  checked whole true do
    let (raw, slop) ← scan (Scan.quotation whole rounds)
    b.phrase field (String.ofList raw) slop

/-- Reads a range. -/
def range (field : String) : ScanT m α :=
  checked whole true do
    let interval ← scan (Scan.interval whole rounds)
    b.multiTerm field (.range interval)

variable (primary : String → ScanT m α)

/-- Reads the clause behind the name of its field; the name is at `start`. -/
def fieldValue (start : Nat) (field : String) : ScanT m α := do
  if lacksValue (← scan (Scan.unread whole)) then
    malformedAt (← get).position .missingValue
  else if (← get).depth = nestingLimit then
    malformedAt start .fieldsTooDeep
  else
    nested (primary field)

/-- Reads a word, and the clause behind it if it names a field. -/
def word (field : String) : ScanT m α :=
  checked whole true do
    let start := (← get).position
    let letters ← scan (Scan.word whole rounds)
    let raw := String.ofList (letters.flatMap Letter.written)
    let text := String.ofList (letters.map Letter.char)
    if letters.isEmpty then
      malformedAt start .missingTerm
    else if ← scan (Scan.colon whole letters) then
      fieldValue whole primary start text
    else if ← scan (Scan.consume whole '~') then
      let edits ← scan (Scan.optional whole rounds .editDistance d.fuzzyMaxEdits)
      b.multiTerm field (.fuzzy text edits)
    else if letters.any Letter.isWild then
      b.multiTerm field (.wildcard raw)
    else
      b.term field text

/-- Reads a clause with its boost. -/
def clause (field : String) : ScanT m α :=
  checked whole true do
    let clause ← primary field
    if ← scan (Scan.consume whole '^') then
      let factor ← scan (Scan.number whole rounds .boost Decimal.float32?)
      b.boost clause factor
    else
      pure clause

/-- Reads a clause with what is written before it. -/
def item (field : String) : ScanT m (Item α) := do
  let conjunction ← scan (Scan.conjunction whole)
  scan (Scan.blanks whole rounds)
  if conjunction.isSome && (← scan (Scan.atLevelEnd whole)) then
    malformedAt (← get).position .missingClause
  else
    let modifier ← scan (Scan.modifier whole)
    scan (Scan.blanks whole rounds)
    let clause ← clause whole rounds b primary field
    return { mark := { conjunction, modifier }, clause }

/-- Reads clauses up to the end of a level. -/
def items (field : String) : (more : Nat) → ScanT m (List (Item α))
  | 0 => throw .unfinished
  | more + 1 => do
    scan (Scan.blanks whole rounds)
    if ← scan (Scan.atLevelEnd whole) then
      pure []
    else
      let item ← item whole rounds b primary field
      let others ← items field more
      return item :: others

/-- Reads a level. -/
def level (field : String) : ScanT m α :=
  checked whole false do
    let items ← items whole rounds b primary field rounds
    (buildLevel b d.operator items : m α)

/-- Reads a group. -/
def group (field : String) : ScanT m α := do
  if (← get).depth = nestingLimit then
    malformedAt (← get).position .groupsTooDeep
  else
    scan (Scan.advance whole)
    let group ← nested (level whole rounds b d primary field)
    scan (Scan.blanks whole rounds)
    if ← scan (Scan.consume whole ')') then
      pure group
    else
      malformedAt (← get).position .missingClose

/-- Reads the start of a clause. -/
def start (field : String) : ScanT m α :=
  checked whole true do
    match ← scan (Scan.peek whole) with
    | some '(' => group whole rounds b d primary field
    | some '"' => phrase whole rounds b field
    | some '[' => range whole rounds b field
    | some '{' => range whole rounds b field
    | _ => word whole rounds b d primary field

/-- Reads the start of a clause, going down once for each level that opens behind it. -/
def startWithin (whole : List Char) (rounds : Nat) (b : Builder m α) (d : Dialect) :
    (descents : Nat) → String → ScanT m α
  | 0, _ => throw .unfinished
  | descents + 1, field => start whole rounds b d (startWithin whole rounds b d descents) field

/-- Reads a whole text. -/
def query (field : String) : ScanT m α := do
  let clause ← level whole rounds b d (startWithin whole rounds b d rounds) field
  scan (Scan.blanks whole rounds)
  if (← scan (Scan.unread whole)).isEmpty then
    pure clause
  else
    malformedAt (← get).position .unexpectedClose

end

end ScanT

/-- The meaning of a text that is read by position, with so many rounds for every loop and for the
recursion. -/
def Builder.ofTextByPosition {m : Type → Type} [Monad m] {α : Type} (b : Builder m α) (d : Dialect)
    (field text : String) (rounds : Nat) : m (Except Stop α) :=
  ((ScanT.query text.toList rounds b d field).run' { position := 0, depth := 0 }).run

/-- A word with letters takes something off the text. -/
theorem shortens_readWord {s : List Char} (h : (readWord s).1 ≠ []) :
    Shortens s (readWord s).2 := by
  cases s with
  | nil => exact absurd rfl h
  | cons c s =>
    by_cases hc : c = '\\'
    · subst hc
      cases s with
      | nil => exact absurd rfl h
      | cons d s =>
        have hrest := (scanInvariant_suffix s).here_readWord List.suffix_rfl
        rw [readWord_escaped]
        exact .of_cons (hrest.trans (List.suffix_cons d s))
    · by_cases hend : endsWord c = true
      · rw [readWord_end hend] at h
        exact absurd rfl h
      · have hend : endsWord c = false := by simpa using hend
        have hrest := (scanInvariant_suffix s).here_readWord List.suffix_rfl
        rw [readWord_plain hc hend]
        exact .of_cons hrest

section

variable {m : Type → Type} [Monad m] [LawfulMonad m] {α : Type} {whole s : List Char} {depth : Nat}
  {rounds : Nat} (hrounds : whole.length < rounds) (hdepth : depth ≤ nestingLimit)
  (b : Builder m α) (d : Dialect)

/-- A phrase is read up to its slop before its hook is called. -/
theorem readPhrase_eq (field : String) (s inside : List Char) :
    readPhrase b field s inside = (do
      let p ← readQuotation s inside
      let clause ← b.phrase field (String.ofList p.1.1) p.1.2
      pure (clause, p.2)) := by
  apply ExceptT.ext
  unfold readPhrase readQuotation
  cases readQuoted inside with
  | none => simp [liftM_error]
  | some p =>
    dsimp only
    cases readSlop p.2 with
    | error f => simp [liftM_error]
    | ok p => simp [liftM_ok]

include hrounds hdepth

/-- A phrase is read by position as it is from the unread text. -/
theorem follows_phrase (field : String) {inside : List Char} (hs : '"' :: inside <:+ whole) :
    Follows whole depth ('"' :: inside) (Shortens ('"' :: inside))
      (ScanT.phrase whole rounds b field) (readPhrase b field ('"' :: inside) inside) := by
  rw [readPhrase_eq, ScanT.phrase]
  refine Follows.checked_shortens ?_ hdepth hs
  exact (Follows.scan (Scan.reads_quotation depth hrounds hs)).bind fun p rest hrest =>
    .hook _ (Shortens.of_cons hrest)

/-- A range is read by position as it is from the unread text. -/
theorem follows_range (field : String) {c : Char} {inside : List Char}
    (hs : c :: inside <:+ whole) :
    Follows whole depth (c :: inside) (Shortens (c :: inside))
      (ScanT.range whole rounds b field) (readRange b field (c = '[') (c :: inside) inside) := by
  rw [readRange, ScanT.range]
  refine Follows.checked_shortens ?_ hdepth hs
  exact (Follows.scan (Scan.reads_interval depth hrounds hs)).bind fun interval rest hrest =>
    .hook _ (Shortens.of_cons hrest)

omit hrounds hdepth

/-- A reading of the start of a clause follows its reader from everywhere in a text. -/
def FollowsPrimary (whole : List Char) (depth : Nat) (y : String → ScanT m α)
    (primary : Primary m α) : Prop :=
  ∀ field s, s <:+ whole → Follows whole depth s (Shortens s) (y field) (primary field s)

/-- One level down, where no more levels may be open, there is nothing to follow. -/
def FollowsBelow (whole : List Char) (depth : Nat) (y : String → ScanT m α) :
    Option (Primary m α) → Prop
  | none => depth = nestingLimit
  | some primary => depth < nestingLimit ∧ FollowsPrimary whole (depth + 1) y primary

section

variable {y : String → ScanT m α} {primary : Primary m α}
  (hy : FollowsPrimary whole depth y primary) (hs : s <:+ whole)

include hrounds hdepth hy hs

/-- A clause is read with its boost. -/
theorem follows_clause (field : String) :
    Follows whole depth s (Shortens s) (ScanT.clause whole rounds b y field)
      (primary field s >>= fun p => readBoost b p.1 p.2) := by
  rw [ScanT.clause]
  refine Follows.checked_shortens ?_ hdepth hs
  refine (hy field s hs).bind fun clause rest hrest => ?_
  refine .ite (Scan.takes_consume '^' (hrest.1.trans hs)) (fun behind hcaret => ?_) fun hnone => ?_
  · obtain rfl := eq_append_of_after? hcaret
    have hbehind : behind <:+ '^' :: behind := List.suffix_cons ..
    have hfactor := Scan.reads_number depth hrounds ((hbehind.trans hrest.1).trans hs) .boost
      Decimal.float32?
    exact (Follows.scan hfactor).bind fun factor t ht =>
      .hook _ (hrest.trans_suffix (ht.trans hbehind))
  · have hboost : readBoost b clause rest = pure (clause, rest) := by
      unfold readBoost
      split
      · cases hnone
      · rfl
    dsimp only
    rw [hboost]
    exact .pure hrest

/-- So is a clause with the operators and signs before it. -/
theorem follows_item (field : String) :
    Follows whole depth s (Shortens s) (ScanT.item whole rounds b y field)
      (readItem b primary field s) := by
  have hsuffix := scanInvariant_suffix s
  have hconj := hsuffix.here_readConjunction List.suffix_rfl
  have hskip := (skipBlanks_suffix _).trans hconj
  have hmod := hsuffix.here_readModifier hskip
  have hstart := (skipBlanks_suffix _).trans hmod
  rw [ScanT.item, readItem]
  dsimp only
  refine .step (Scan.run_conjunction depth hs) (.step (Scan.run_blanks depth hrounds
    (hconj.trans hs)) (.step (Scan.run_atLevelEnd depth (hskip.trans hs)) ?_))
  split
  · exact .get_bind (.malformed _ (hskip.trans hs))
  · refine .step (Scan.run_modifier depth (hskip.trans hs))
      (.step (Scan.run_blanks depth hrounds (hmod.trans hs)) ?_)
    have hclause := follows_clause hrounds hdepth b hy (hstart.trans hs) field
    rw [← bind_assoc]
    exact hclause.bind fun clause rest hrest => .pure (hrest.of_suffix hstart)

/-- The loop of a level ends: every clause shortens the text, and the rounds are more than its
characters. -/
theorem follows_items (field : String) {bound more : Nat} (hbound : s.length ≤ bound)
    (hmore : s.length < more) :
    Follows whole depth s (fun t => t <:+ s ∧ endsLevel t = true)
      (ScanT.items whole rounds b y field more) (readItems b primary field bound s) := by
  -- neither the bound of the reader nor the rounds run out before the text does
  induction bound generalizing s more with
  | zero =>
    obtain rfl := List.eq_nil_of_length_eq_zero (Nat.le_zero.mp hbound)
    obtain ⟨more, rfl⟩ := Nat.exists_eq_succ_of_ne_zero (Nat.ne_of_gt hmore)
    exact .step (Scan.run_blanks depth hrounds hs) (.step (Scan.run_atLevelEnd depth hs)
      (.pure ⟨List.suffix_rfl, rfl⟩))
  | succ bound ih =>
    obtain ⟨more, rfl⟩ := Nat.exists_eq_succ_of_ne_zero (Nat.ne_of_gt (Nat.zero_lt_of_lt hmore))
    have hskip := skipBlanks_suffix s
    rw [ScanT.items, readItems]
    dsimp only
    refine .step (Scan.run_blanks depth hrounds hs)
      (.step (Scan.run_atLevelEnd depth (hskip.trans hs)) ?_)
    split
    next hend => exact .pure ⟨hskip, hend⟩
    next =>
      have hitem := follows_item hrounds hdepth b hy (hskip.trans hs) field
      refine hitem.bind fun item rest hrest => ?_
      have hrest := hrest.of_suffix hskip
      have hothers := ih (hrest.1.trans hs) (Nat.le_of_lt_succ (Nat.lt_of_lt_of_le hrest.2 hbound))
        (Nat.lt_of_lt_of_le hrest.2 (Nat.le_of_lt_succ hmore))
      exact hothers.bind fun others t ht => .pure ⟨ht.1.trans hrest.1, ht.2⟩

/-- A level need not read anything, and it stops where a level ends. -/
theorem follows_level (field : String) :
    Follows whole depth s (fun t => t <:+ s ∧ endsLevel t = true)
      (ScanT.level whole rounds b d y field) (readLevel b d.operator primary field s) := by
  have hitems := follows_items hrounds hdepth b hy hs field Nat.le.refl
    (Scan.length_lt_rounds hrounds hs)
  rw [ScanT.level, readLevel]
  refine Follows.checked ?_ hdepth hs fun t ht => ⟨ht.1, fun h => by cases h⟩
  exact hitems.bind fun items rest hrest => .hook _ hrest

end

/-- Where a level ends there are no blanks left. -/
theorem skipBlanks_of_endsLevel {s : List Char} (h : endsLevel s = true) : skipBlanks s = s := by
  cases s with
  | nil => rfl
  | cons c s =>
    have hc : c = ')' := by simpa [endsLevel] using h
    subst hc
    rfl

section

variable {y : String → ScanT m α} {below : Option (Primary m α)}
  (hbelow : FollowsBelow whole depth y below)

include hrounds hbelow

/-- A group is read by position as it is from the unread text, with one more level open inside. -/
theorem follows_group (field : String) {inside : List Char} (hs : '(' :: inside <:+ whole) :
    Follows whole depth ('(' :: inside) (Shortens ('(' :: inside))
      (ScanT.group whole rounds b d y field)
      (readGroup b d.operator below field ('(' :: inside) inside) := by
  have hinside := (List.suffix_cons '(' inside).trans hs
  rw [ScanT.group, readGroup.eq_def]
  refine .get_bind ?_
  cases below with
  | none =>
    have hfull : (Cursor.before whole depth ('(' :: inside)).depth = nestingLimit := hbelow
    rw [if_pos hfull]
    exact .get_bind (.malformed _ hs)
  | some primary =>
    obtain ⟨hless, hy⟩ := hbelow
    have hroom : (Cursor.before whole depth ('(' :: inside)).depth ≠ nestingLimit :=
      Nat.ne_of_lt hless
    rw [if_neg hroom]
    have hlevel := follows_level hrounds hless b d hy hinside field
    refine .step (Scan.run_advance depth hs) (hlevel.nested.bind fun group rest hrest => ?_)
    obtain ⟨hrest, hend⟩ := hrest
    -- the level has gone past the blanks at its end
    have hblanks := Scan.run_blanks depth hrounds (hrest.trans hinside)
    rw [skipBlanks_of_endsLevel hend] at hblanks
    refine .step hblanks (.ite (Scan.takes_consume ')' (hrest.trans hinside)) (fun t hclose => ?_)
      fun hnone => ?_)
    · obtain rfl := eq_append_of_after? hclose
      exact .pure (Shortens.of_cons ((List.suffix_cons ..).trans hrest))
    · dsimp only
      split
      · cases hnone
      · exact .get_bind (.malformed _ (hrest.trans hinside))

omit hrounds in
/-- What stands behind the name of a field is read alike, the name having moved the cursor on. -/
theorem follows_fieldValue (field : String) {value : List Char} (hs : s <:+ whole)
    (hvalue : Shortens s value) :
    Follows whole depth value (Shortens s)
      (ScanT.fieldValue whole y (Cursor.before whole depth s).position field)
      (readFieldValue below field s value) := by
  have hinside := hvalue.1.trans hs
  rw [ScanT.fieldValue, readFieldValue.eq_def]
  refine .step (Scan.run_unread depth hinside) ?_
  split
  · exact .get_bind (.malformed _ hinside)
  · refine .get_bind ?_
    cases below with
    | none =>
      have hfull : (Cursor.before whole depth value).depth = nestingLimit := hbelow
      rw [if_pos hfull]
      exact .malformed _ hs
    | some primary =>
      obtain ⟨hless, hy⟩ := hbelow
      have hroom : (Cursor.before whole depth value).depth ≠ nestingLimit := Nat.ne_of_lt hless
      rw [if_neg hroom]
      exact (hy field value hinside).nested.imp fun t ht => ht.of_suffix hvalue.1

include hdepth

/-- A clause that starts with a word is read by position as it is from the unread text. -/
theorem follows_word (field : String) (hs : s <:+ whole) :
    Follows whole depth s (Shortens s) (ScanT.word whole rounds b d y field)
      (readWordClause b d below field s) := by
  have hshort := @shortens_readWord s
  have hrun := Scan.run_word depth hs (Scan.length_lt_rounds hrounds hs)
  rcases hword : readWord s with ⟨letters, rest⟩
  rw [hword] at hshort hrun
  dsimp only at hshort hrun
  rw [ScanT.word]
  simp only [readWordClause, hword]
  refine Follows.checked_shortens (.get_bind (.step hrun ?_)) hdepth hs
  by_cases hempty : letters.isEmpty = true
  · rw [if_pos hempty, if_pos hempty]
    exact .malformed _ hs
  rw [if_neg hempty, if_neg hempty]
  have hrest := hshort (by simpa using hempty)
  refine .ite (Scan.takes_colon letters (hrest.1.trans hs)) (fun value hcolon => ?_) fun hnone => ?_
  · obtain ⟨hwild, hcolon⟩ := Option.ite_none_left_eq_some.mp hcolon
    obtain rfl := eq_append_of_after? hcolon
    have hvalue := hrest.trans_suffix (List.suffix_cons ':' value)
    rw [Bool.not_eq_true] at hwild
    rw [hwild]
    exact follows_fieldValue hbelow _ hs hvalue
  refine .ite (Scan.takes_consume '~' (hrest.1.trans hs)) (fun behind htilde => ?_) fun hnone' => ?_
  · obtain rfl := eq_append_of_after? htilde
    have hbehind := hrest.trans_suffix (List.suffix_cons '~' behind)
    have hedits := Scan.reads_optional depth hrounds (hbehind.1.trans hs) .editDistance
      d.fuzzyMaxEdits
    -- a tilde comes before the question whether the word is a pattern
    cases letters.any Letter.isWild <;> exact (Follows.scan hedits).bind fun edits t ht =>
      .hook _ (hbehind.trans_suffix ht)
  · cases hwild : letters.any Letter.isWild with
    | true =>
      rw [if_pos rfl]
      split
      next hfalse => cases hfalse
      next => cases hnone'
      next => exact .hook _ hrest
      next hfalse _ _ => cases hfalse
    | false =>
      rw [hwild] at hnone
      rw [if_neg Bool.false_ne_true]
      split
      next => cases hnone
      next => cases hnone'
      next hfalse _ => cases hfalse
      next => exact .hook _ hrest

/-- So is any clause that is not yet boosted. -/
theorem follows_start (field : String) (hs : s <:+ whole) :
    Follows whole depth s (Shortens s) (ScanT.start whole rounds b d y field)
      (readStart b d below field s) := by
  rw [ScanT.start]
  refine Follows.checked_shortens (.step (Scan.run_peek depth hs) ?_) hdepth hs
  unfold readStart
  split
  next hhead =>
    obtain ⟨inside, rfl⟩ := List.head?_eq_some_iff.mp hhead
    exact follows_group hrounds b d hbelow field hs
  next hhead =>
    obtain ⟨inside, rfl⟩ := List.head?_eq_some_iff.mp hhead
    exact follows_phrase hrounds hdepth b field hs
  next hhead =>
    obtain ⟨inside, rfl⟩ := List.head?_eq_some_iff.mp hhead
    exact follows_range hrounds hdepth b field hs
  next hhead =>
    obtain ⟨inside, rfl⟩ := List.head?_eq_some_iff.mp hhead
    exact follows_range hrounds hdepth b field hs
  next hgroup hphrase hsquare hcurly =>
    split
    next => exact absurd rfl hgroup
    next => exact absurd rfl hphrase
    next => exact absurd rfl hsquare
    next => exact absurd rfl hcurly
    next => exact follows_word hrounds hdepth b d hbelow field hs

end

omit hdepth

include hrounds

/-- The recursion ends: it goes down once for each level that may still be opened. -/
theorem followsPrimary_startWithin {levels descents : Nat} (hlevels : levels + depth = nestingLimit)
    (hdescents : levels < descents) :
    FollowsPrimary whole depth (ScanT.startWithin whole rounds b d descents)
      (readPrimary b d levels) := by
  induction levels generalizing depth descents with
  | zero =>
    obtain ⟨descents, rfl⟩ := Nat.exists_eq_succ_of_ne_zero (Nat.ne_of_gt hdescents)
    have hbelow : FollowsBelow whole depth (ScanT.startWithin whole rounds b d descents) none := by
      rw [FollowsBelow, ← hlevels, Nat.zero_add]
    intro field s hs
    exact follows_start hrounds (Nat.le_of_eq hbelow) b d hbelow field hs
  | succ levels ih =>
    obtain ⟨descents, rfl⟩ :=
      Nat.exists_eq_succ_of_ne_zero (Nat.ne_of_gt (Nat.zero_lt_of_lt hdescents))
    have hbelow : FollowsBelow whole depth (ScanT.startWithin whole rounds b d descents)
        (some (readPrimary b d levels)) :=
      ⟨by omega, ih (by omega) (Nat.lt_of_succ_lt_succ hdescents)⟩
    intro field s hs
    exact follows_start hrounds (Nat.le_of_lt hbelow.1) b d hbelow field hs

/-- A whole text is followed, and what is read of it is all of it. -/
theorem follows_query (hlevels : nestingLimit < rounds) (field : String) :
    ∃ x : ExceptT Failure m (α × List Char), readWhole b d field whole = Prod.fst <$> x ∧
      Follows whole 0 whole (fun t => t = []) (ScanT.query whole rounds b d field) x := by
  have hprimary : FollowsPrimary whole 0 (ScanT.startWithin whole rounds b d rounds)
      (readPrimary b d nestingLimit) :=
    followsPrimary_startWithin hrounds b d (Nat.add_zero _) hlevels
  have hlevel := follows_level hrounds (Nat.zero_le _) b d hprimary List.suffix_rfl field
  refine ⟨readLevel b d.operator (readPrimary b d nestingLimit) field whole >>= fun p =>
    if p.2.isEmpty then pure p else throw { cause := .unexpectedClose, unread := p.2 }, ?_, ?_⟩
  · rw [readWhole, map_bind]
    refine bind_congr fun p => ?_
    obtain ⟨clause, rest⟩ := p
    cases rest with
    | nil => exact (map_pure Prod.fst (clause, ([] : List Char))).symm
    | cons c rest => exact ExceptT.ext (by simp)
  · rw [ScanT.query]
    refine hlevel.bind fun clause rest hrest => ?_
    obtain ⟨hrest, hend⟩ := hrest
    have hblanks := Scan.run_blanks 0 hrounds hrest
    rw [skipBlanks_of_endsLevel hend] at hblanks
    refine .step hblanks (.step (Scan.run_unread 0 hrest) ?_)
    cases rest with
    | nil => exact .pure rfl
    | cons c rest => exact .get_bind (.malformed _ hrest)

end

/-- The length in bytes that the grammar counts is that of the text in UTF-8. -/
theorem utf8Length_eq (s : List Char) : utf8Length s = (String.ofList s).utf8ByteSize := by
  induction s with
  | nil => rfl
  | cons c s ih =>
    rw [utf8Length, ih, String.ofList_cons, String.utf8ByteSize_append,
      String.utf8ByteSize_singleton]

/-- A malformation that a text ends in stands behind a beginning of the text. -/
theorem exists_position_located {text : String} {f : Failure} (hf : f.unread <:+ text.toList) :
    ∃ read unread : String, text = read ++ unread ∧
      (f.located text.toList).position = read.utf8ByteSize := by
  obtain ⟨read, hread⟩ := hf
  refine ⟨String.ofList read, String.ofList f.unread, ?_, ?_⟩
  · rw [← String.ofList_append, hread, String.ofList_toList]
  · rw [Failure.located, ← hread, f.position_append, utf8Length_eq]

/-- For every builder, a text that is read by position has the meaning that it has. No check of the
cursor fails on the way: wherever a level, a clause, the start of a clause, a phrase, a range or a
word is entered, the cursor stands between two characters with at most `nestingLimit` levels open;
where it succeeds the cursor stands so again, with as many levels open as before, behind the place
of entry or, for a level, not before it. Every cut of the text is in bounds and between two
characters, and every loop and the recursion end within their rounds. The position of a malformation
is the length in UTF-8 of a beginning of the text. -/
theorem ofTextByPosition_eq_ofText {m : Type → Type} [Monad m] [LawfulMonad m] {α : Type}
    (b : Builder m α) (d : Dialect) (field text : String) {rounds : Nat}
    (hlength : text.length < rounds) (hlevels : nestingLimit < rounds) :
    b.ofTextByPosition d field text rounds =
        Except.mapError Stop.malformed <$> b.ofText d field text ∧
      SatisfiesM (fun r => ∀ e : Malformed, r = .error e →
        ∃ read unread : String, text = read ++ unread ∧ e.position = read.utf8ByteSize)
        (b.ofText d field text) := by
  rw [← String.length_toList] at hlength
  obtain ⟨x, hread, hfollows⟩ := follows_query hlength b d hlevels field
  have htext : b.ofText d field text = (fun r =>
      Except.mapError (Failure.located text.toList) (Except.map Prod.fst r)) <$> x.run := by
    rw [Builder.ofText, hread]
    refine (ExceptT.run_adapt ..).trans ?_
    rw [ExceptT.run_map, Functor.map_map]
  have hstart : ({ position := 0, depth := 0 } : Cursor) = .before text.toList 0 text.toList := by
    rw [Cursor.before, Nat.sub_self]
  constructor
  · have hposition : b.ofTextByPosition d field text rounds =
        (fun r => Except.map Prod.fst (Cursor.placed text.toList 0 r)) <$> x.run := by
      rw [Builder.ofTextByPosition, hstart, StateT.run'_eq, ExceptT.run_map, hfollows.run,
        Functor.map_map]
    rw [hposition, htext, Functor.map_map]
    congr 1
    funext r
    rcases r with f | ⟨v, rest⟩ <;> rfl
  · rw [htext]
    refine hfollows.leaves.map fun {r} hr => ?_
    rcases r with f | ⟨v, rest⟩
    · intro e he
      obtain rfl := Except.error.inj he
      exact exists_position_located hr
    · intro e he
      cases he

/-- A group about a field holds a phrase whose last quote is escaped, so nothing closes the phrase;
it starts at byte 4, behind a character of two bytes. -/
theorem ofTextByPosition_eq_ofText_of_unterminated :
    "é:(\"ü\\\"".length < 129 ∧ nestingLimit < 129 ∧
      Expression.builder.ofTextByPosition {} "body" "é:(\"ü\\\"" 129 =
        .error (.malformed { position := 4, cause := .unterminatedPhrase }) ∧
      ∃ read unread : String, "é:(\"ü\\\"" = read ++ unread ∧ 4 = read.utf8ByteSize := by
  have hlength : "é:(\"ü\\\"".length < 129 := by decide
  have hlevels : nestingLimit < 129 := by decide
  have htext : Expression.builder.ofText {} "body" "é:(\"ü\\\"" =
      .error { position := 4, cause := .unterminatedPhrase } := by
    cbv
  obtain ⟨hposition, hread⟩ := ofTextByPosition_eq_ofText Expression.builder {} "body"
    "é:(\"ü\\\"" hlength hlevels
  rw [htext] at hposition hread
  exact ⟨hlength, hlevels, hposition, SatisfiesM_Id_eq.mp hread _ rfl⟩

end ProximityQuery
