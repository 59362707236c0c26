import ProximityQuery.Proofs.Continuation
import ProximityQuery.Proofs.SpelledLevel

/-!
# Levels that go on

A level that ends with its text, or at a closing parenthesis in it, is read the same with more
behind the text: at a parenthesis it still ends, and at the end it goes on with the clauses behind.
Nesting levels beyond those that a text needs change nothing.
-/

namespace ProximityQuery

open Grammar

/-- What a clause leaves unread satisfies every invariant of scanning. -/
theorem ScanInvariant.here_readPrimary {here admits : List Char → Prop}
    (inv : ScanInvariant here admits) {d : Dialect} {levels : Nat} {field : String}
    {s rest : List Char} {e : Expression}
    (h : readPrimary Expression.builder d levels field s = pure (e, rest)) (hs : here s) :
    here rest := by
  obtain ⟨o, ho⟩ := (uniform_readPrimary d levels field s).outcome
  have hplain : readPrimary Expression.builder d levels field s =
      o.run Expression.builder (keepRest (Expression.build Expression.builder)) :=
    ho ⟨Id, Expression, Expression.builder⟩
  have hrecorded : readPrimary Expression.recorder d levels field s =
      o.run Expression.recorder (keepRest (Expression.build Expression.recorder)) :=
    ho ⟨StateM (List Expression), Expression, Expression.recorder⟩
  obtain ⟨-, hleft⟩ := keepsInvariant_readPrimary inv d levels field s hs [] (by simp)
  rcases o with ⟨e', rest'⟩ | ⟨completed, f⟩
  · rw [hplain, Outcome.run_done, Expression.build_builder] at h
    obtain ⟨rfl, rfl⟩ := Prod.mk.inj (Except.ok.inj h)
    refine hleft (e', rest') ?_
    rw [hrecorded, Outcome.run_done]
    simp only [ExceptT.run_bind_lift, StateT.run_bind, Expression.run_build_recorder]
    rfl
  · rw [hplain] at h
    cases h

/-- A reader of the start of a clause that reads with `tail` behind the text what another reads from
the text alone. -/
structure GoesOn (tail : List Char) (primary primary' : Primary Id Expression) : Prop where
  /-- Nothing is no clause. -/
  ne_nil : ∀ {field s p}, primary field s = pure p → s ≠ []
  /-- A clause does not end inside an escape, nor does what it leaves. -/
  closed : ∀ {field s e rest}, EscapesClosed s → primary field s = pure (e, rest) →
    EscapesClosed rest
  reads : ∀ {field s e rest}, EscapesClosed s → primary field s = pure (e, rest) →
    primary' field (s ++ tail) = pure (e, rest ++ tail)

/-- Whether a level ends at a place is told by the text at that place, if there is any. -/
theorem endsLevel_append_tail {s : List Char} (h : s ≠ []) (tail : List Char) :
    endsLevel (s ++ tail) = endsLevel s := by
  obtain ⟨c, rest, rfl⟩ := List.exists_cons_of_ne_nil h
  rfl

/-- At the end of the text a level has no more clauses. -/
theorem readItems_nil (primary : Primary Id Expression) (field : String) (bound : Nat) :
    readItems Expression.builder primary field bound [] = pure ([], []) := by
  cases bound <;> rfl

/-- Nothing is read at the end of a group. -/
theorem readItems_close (primary : Primary Id Expression) (field : String) (bound : Nat)
    (rest : List Char) :
    readItems Expression.builder primary field bound (')' :: rest) = pure ([], ')' :: rest) := by
  cases bound <;> rfl

/-- Blanks before the first clause change nothing. -/
theorem readItems_skipBlanks_append (primary : Primary Id Expression) (field : String)
    (bound : Nat) (s tail : List Char) :
    readItems Expression.builder primary field (bound + 1) (s ++ tail) =
      readItems Expression.builder primary field (bound + 1) (skipBlanks s ++ tail) := by
  have hsplit : s.takeWhile isBlank ++ (skipBlanks s ++ tail) = s ++ tail := by
    rw [skipBlanks, ← List.append_assoc, List.takeWhile_append_dropWhile]
  have hskip : skipBlanks (s ++ tail) = skipBlanks (skipBlanks s ++ tail) := by
    rw [← hsplit]
    exact List.dropWhile_append_of_pos fun c hc => List.mem_takeWhile_imp hc
  rw [Grammar.readItems, Grammar.readItems, hskip]

/-- A boost leaves no escape open. -/
theorem escapesClosed_of_readBoost {e e' : Expression} {s rest : List Char}
    (h : readBoost Expression.builder e s = pure (e', rest)) (hs : EscapesClosed s) :
    EscapesClosed rest := by
  rw [readBoost_builder] at h
  split at h
  next digits =>
    obtain ⟨⟨factor, r⟩, hfactor, hpure⟩ := exists_pure_of_bind_eq_pure h
    obtain ⟨-, rfl⟩ := Prod.mk.inj (Except.ok.inj hpure)
    exact scanInvariant_escapesClosed.here_readQuantity (eq_ok_of_liftM_eq_pure hfactor)
      (scanInvariant_escapesClosed.plain rfl hs)
  next =>
    obtain ⟨-, rfl⟩ := Prod.mk.inj (Except.ok.inj h)
    exact hs

section

variable {tail : List Char} (htail : EndsClause tail)

include htail

/-- A boost ends before the tail. -/
theorem EndsClause.readBoost_append_tail {e e' : Expression} {s rest : List Char}
    (h : readBoost Expression.builder e s = pure (e', rest)) :
    readBoost Expression.builder e (s ++ tail) = pure (e', rest ++ tail) := by
  by_cases hboost : ∃ digits, s = '^' :: digits
  · obtain ⟨digits, rfl⟩ := hboost
    rw [readBoost_builder] at h
    obtain ⟨⟨factor, r⟩, hfactor, hpure⟩ := exists_pure_of_bind_eq_pure h
    obtain ⟨rfl, rfl⟩ := Prod.mk.inj (Except.ok.inj hpure)
    have hread := htail.readQuantity_append_tail (eq_ok_of_liftM_eq_pure hfactor)
    rw [List.cons_append, readBoost_builder]
    simp only [hread]
    rfl
  · push Not at hboost
    rw [readBoost_of_ne hboost] at h
    obtain ⟨rfl, rfl⟩ := Prod.mk.inj (Except.ok.inj h)
    exact readBoost_of_ne (htail.append_ne_cons rfl hboost) e

/-- A phrase ends before the tail with its slop. -/
theorem EndsClause.readPhrase_append_tail {field : String} {s inside rest : List Char}
    {e : Expression} (h : readPhrase Expression.builder field s inside = pure (e, rest))
    (s' : List Char) :
    readPhrase Expression.builder field s' (inside ++ tail) = pure (e, rest ++ tail) := by
  rw [readPhrase_builder] at h ⊢
  split at h
  · cases h
  next raw r hquoted =>
    obtain ⟨⟨slop, r'⟩, hslop, h⟩ := exists_pure_of_bind_eq_pure h
    obtain ⟨rfl, rfl⟩ := Prod.mk.inj (Except.ok.inj h)
    have hread := htail.readSlop_append_tail (eq_ok_of_liftM_eq_pure hslop)
    simp only [readQuoted_append_tail tail hquoted, hread]
    rfl

/-- A range ends before the tail with its closing bracket. -/
theorem EndsClause.readRange_append_tail {field : String} {includesLower : Bool}
    {s inside rest : List Char} {e : Expression}
    (h : readRange Expression.builder field includesLower s inside = pure (e, rest))
    (s' : List Char) :
    readRange Expression.builder field includesLower s' (inside ++ tail) =
      pure (e, rest ++ tail) := by
  rw [readRange_builder] at h ⊢
  obtain ⟨⟨i, r⟩, hinterval, h⟩ := exists_pure_of_bind_eq_pure h
  obtain ⟨rfl, rfl⟩ := Prod.mk.inj (Except.ok.inj h)
  rw [htail.readInterval_append_tail (eq_ok_of_liftM_eq_pure hinterval) s']
  rfl

variable {primary primary' : Primary Id Expression} (hp : GoesOn tail primary primary')
  {field : String}

include hp

/-- A clause with what is written before it. -/
theorem GoesOn.readItem_append_tail {s rest : List Char} {item : Item Expression} (hs : EscapesClosed s)
    (h : readItem Expression.builder primary field s = pure (item, rest)) :
    EscapesClosed rest ∧
      readItem Expression.builder primary' field (s ++ tail) = pure (item, rest ++ tail) := by
  have inv := scanInvariant_escapesClosed
  have hclosed := inv.here_skipBlanks (inv.here_readModifier
    (inv.here_skipBlanks (inv.here_readConjunction hs)))
  unfold Grammar.readItem at h ⊢
  dsimp only at h ⊢
  split at h
  · cases h
  next hconj =>
    obtain ⟨⟨start, r⟩, hstart, h⟩ := exists_pure_of_bind_eq_pure h
    obtain ⟨⟨clause, r'⟩, hboost, h⟩ := exists_pure_of_bind_eq_pure h
    obtain ⟨rfl, rfl⟩ := Prod.mk.inj (Except.ok.inj h)
    have hr := hp.closed hclosed hstart
    -- the clause has a character, so what stands before it does not reach the end of the text
    have hclause := hp.ne_nil hstart
    have hsigned : skipBlanks (readConjunction s).2 ≠ [] := by
      intro hnil
      rw [hnil] at hclause
      exact hclause rfl
    refine ⟨escapesClosed_of_readBoost hboost hr, ?_⟩
    rw [htail.readConjunction_append_tail fun _ => ne_nil_of_skipBlanks hsigned]
    dsimp only
    rw [skipBlanks_append_tail tail hsigned, endsLevel_append_tail hsigned, if_neg hconj,
      htail.readModifier_append_tail fun _ => ne_nil_of_skipBlanks hclause]
    dsimp only
    rw [skipBlanks_append_tail tail hclause, hp.reads hclosed hstart, pure_bind]
    dsimp only
    rw [htail.readBoost_append_tail hboost, pure_bind]

/-- The clauses up to the end of a level. With more behind the text, the reading goes on from there,
and `more` clauses may still follow. -/
theorem GoesOn.readItems_append_tail (bound more : Nat) {s rest : List Char} {items : List (Item Expression)}
    (hs : EscapesClosed s)
    (h : readItems Expression.builder primary field bound s = pure (items, rest))
    (hend : endsLevel rest = true) :
    EscapesClosed rest ∧ ∃ bound' ≥ more,
      readItems Expression.builder primary' field (bound + more) (s ++ tail) =
        readItems Expression.builder primary' field bound' (rest ++ tail) >>= fun p =>
          pure (items ++ p.1, p.2) := by
  -- each clause takes one from both bounds, so `more` are left of the second in the end
  induction bound generalizing s items with
  | zero =>
    obtain ⟨rfl, rfl⟩ := Prod.mk.inj (Except.ok.inj h)
    refine ⟨hs, more, Nat.le_refl more, ?_⟩
    rw [Nat.zero_add]
    exact (bind_pure _).symm
  | succ bound ih =>
    have hskip := scanInvariant_escapesClosed.here_skipBlanks hs
    rw [Grammar.readItems] at h
    dsimp only at h
    split at h
    · obtain ⟨rfl, rfl⟩ := Prod.mk.inj (Except.ok.inj h)
      refine ⟨hskip, bound + 1 + more, Nat.le_add_left more _, ?_⟩
      rw [Nat.add_right_comm, readItems_skipBlanks_append]
      exact (bind_pure _).symm
    next hmore =>
      obtain ⟨⟨item, r⟩, hitem, h⟩ := exists_pure_of_bind_eq_pure h
      obtain ⟨⟨others, r'⟩, hothers, h⟩ := exists_pure_of_bind_eq_pure h
      obtain ⟨rfl, rfl⟩ := Prod.mk.inj (Except.ok.inj h)
      obtain ⟨hr, hfirst⟩ := hp.readItem_append_tail htail hskip hitem
      obtain ⟨hclosed, bound', hbound, hlater⟩ := ih hr hothers
      refine ⟨hclosed, bound', hbound, ?_⟩
      have hne : skipBlanks s ≠ [] := by
        intro hnil
        rw [hnil] at hmore
        exact hmore rfl
      rw [Nat.add_right_comm, Grammar.readItems]
      dsimp only
      rw [skipBlanks_append_tail tail hne, endsLevel_append_tail hne, if_neg hmore, hfirst,
        pure_bind]
      dsimp only
      rw [hlater, bind_assoc]
      simp only [pure_bind, List.cons_append]

/-- A level that ends at a closing parenthesis ends there with more behind the text. -/
theorem GoesOn.readLevel_append_tail (op : Operator) {s rest : List Char} {e : Expression}
    (hs : EscapesClosed s)
    (h : readLevel Expression.builder op primary field s = pure (e, ')' :: rest)) :
    EscapesClosed rest ∧
      readLevel Expression.builder op primary' field (s ++ tail) =
        pure (e, ')' :: rest ++ tail) := by
  rw [readLevel_builder] at h
  obtain ⟨⟨items, r⟩, hitems, h⟩ := exists_pure_of_bind_eq_pure h
  obtain ⟨rfl, rfl⟩ := Prod.mk.inj (Except.ok.inj h)
  obtain ⟨hclosed, bound', -, hread⟩ := hp.readItems_append_tail htail s.length tail.length hs hitems rfl
  have hstop : readItems Expression.builder primary' field bound' (')' :: rest ++ tail) =
      pure ([], ')' :: rest ++ tail) :=
    readItems_close primary' field bound' (rest ++ tail)
  refine ⟨scanInvariant_escapesClosed.plain rfl hclosed, ?_⟩
  rw [readLevel_builder, List.length_append, hread, hstop, pure_bind, pure_bind, List.append_nil]

end

section

variable {tail : List Char} (htail : EndsClause tail)
  {below below' : Option (Primary Id Expression)}
  (hb : ∀ primary ∈ below, ∃ primary' ∈ below', GoesOn tail primary primary')
  {field : String} {s rest : List Char} {e : Expression}

include htail hb

/-- A group ends at its own closing parenthesis, before the tail. -/
theorem readGroup_append_tail (op : Operator) {inside : List Char} (hs : EscapesClosed inside)
    (h : readGroup Expression.builder op below field s inside = pure (e, rest))
    (s' : List Char) :
    readGroup Expression.builder op below' field s' (inside ++ tail) = pure (e, rest ++ tail) := by
  unfold readGroup at h
  split at h
  · cases h
  next primary =>
    obtain ⟨⟨group, r⟩, hlevel, h⟩ := exists_pure_of_bind_eq_pure h
    obtain ⟨primary', rfl, hp⟩ := hb primary rfl
    dsimp only at h
    split at h
    next r =>
      obtain ⟨rfl, rfl⟩ := Prod.mk.inj (Except.ok.inj h)
      obtain ⟨-, hread⟩ := hp.readLevel_append_tail htail op hs hlevel
      simp only [readGroup, hread]
      rfl
    next => cases h

omit htail in
/-- What stands behind the name of a field ends before the tail. -/
theorem readFieldValue_append_tail {value : List Char} (hs : EscapesClosed value)
    (h : readFieldValue below field s value = pure (e, rest)) (s' : List Char) :
    readFieldValue below' field s' (value ++ tail) = pure (e, rest ++ tail) := by
  unfold readFieldValue at h
  split at h
  · cases h
  next hvalue =>
    have hlacks := lacksValue_append (by simpa using hvalue) tail
    split at h
    · cases h
    next primary =>
      obtain ⟨primary', rfl, hp⟩ := hb primary rfl
      simp only [readFieldValue, hlacks]
      exact hp.reads hs h

/-- A clause that starts with a word ends before the tail. -/
theorem readWordClause_append_tail (d : Dialect) (hs : EscapesClosed s)
    (h : readWordClause Expression.builder d below field s = pure (e, rest)) :
    readWordClause Expression.builder d below' field (s ++ tail) = pure (e, rest ++ tail) := by
  have hword := htail.readWord_append_tail hs
  have hclosed := scanInvariant_escapesClosed.here_readWord hs
  rcases hw : readWord s with ⟨letters, r⟩
  rw [hw] at hword hclosed
  simp only [readWordClause, hw] at h
  simp only [readWordClause, hword]
  split at h
  · cases h
  next hletters =>
    rw [if_neg hletters]
    split at h
    next value hwild =>
      have hvalue := readFieldValue_append_tail hb
        (scanInvariant_escapesClosed.plain rfl hclosed) h (s ++ tail)
      simp only [hwild, List.cons_append]
      exact hvalue
    next r =>
      obtain ⟨⟨edits, r'⟩, hedits, h⟩ := exists_pure_of_bind_eq_pure h
      obtain ⟨rfl, rfl⟩ := Prod.mk.inj (Except.ok.inj h)
      have hread := htail.readOptional_append_tail (eq_ok_of_liftM_eq_pure hedits)
      cases letters.any Letter.isWild with
      | true =>
        simp only [List.cons_append, hread]
        rfl
      | false =>
        simp only [List.cons_append, hread]
        rfl
    next hwild htilde =>
      obtain ⟨rfl, rfl⟩ := Prod.mk.inj (Except.ok.inj h)
      have hne := htail.append_ne_cons (c := '~') rfl htilde
      rw [hwild]
      split
      next hfalse _ => cases hfalse
      next heq => exact absurd heq (hne _)
      next => rfl
      next hfalse _ _ => cases hfalse
    next hwild hcolon htilde =>
      obtain ⟨rfl, rfl⟩ := Prod.mk.inj (Except.ok.inj h)
      have hfield := htail.append_ne_cons (c := ':') rfl hcolon
      have hfuzzy := htail.append_ne_cons (c := '~') rfl htilde
      rw [hwild]
      split
      next heq => exact absurd heq (hfield _)
      next heq => exact absurd heq (hfuzzy _)
      next htrue _ => cases htrue
      next => rfl

/-- So does any clause that is not yet boosted. -/
theorem readStart_append_tail (d : Dialect) (hs : EscapesClosed s)
    (h : readStart Expression.builder d below field s = pure (e, rest)) :
    readStart Expression.builder d below' field (s ++ tail) = pure (e, rest ++ tail) := by
  have hinside : ∀ {c inside}, isPlain c = true → EscapesClosed (c :: inside) →
      EscapesClosed inside := scanInvariant_escapesClosed.plain
  unfold readStart at h
  split at h
  · exact readGroup_append_tail htail hb d.operator (hinside rfl hs) h _
  · exact htail.readPhrase_append_tail h _
  · exact htail.readRange_append_tail h _
  · exact htail.readRange_append_tail h _
  next hgroup hphrase hclosed hopen =>
    have hword := readWordClause_append_tail htail hb d hs h
    unfold readStart
    split
    next heq => exact absurd heq (htail.append_ne_cons rfl hgroup _)
    next heq => exact absurd heq (htail.append_ne_cons rfl hphrase _)
    next heq => exact absurd heq (htail.append_ne_cons rfl hclosed _)
    next heq => exact absurd heq (htail.append_ne_cons rfl hopen _)
    next => exact hword

end

/-- Nothing is read as a clause where the text has ended. -/
theorem ne_nil_of_readPrimary {d : Dialect} {levels : Nat} {field : String} {s : List Char}
    {p : Expression × List Char}
    (h : readPrimary Expression.builder d levels field s = pure p) : s ≠ [] := by
  rintro rfl
  obtain ⟨below, hbelow⟩ := exists_readStart d levels
  rw [hbelow] at h
  cases h

/-- Clauses are read the same with more behind the text and with more levels that may be opened. -/
theorem goesOn_readPrimary (d : Dialect) (levels more : Nat) {tail : List Char}
    (htail : EndsClause tail) :
    GoesOn tail (readPrimary Expression.builder d levels)
      (readPrimary Expression.builder d (levels + more)) := by
  induction levels with
  | zero =>
    refine ⟨ne_nil_of_readPrimary, fun hs h => ?_, fun hs h => ?_⟩
    · exact scanInvariant_escapesClosed.here_readPrimary h hs
    · obtain ⟨below, hbelow⟩ := exists_readStart d (0 + more)
      rw [hbelow]
      exact readStart_append_tail htail (by simp) d hs h
  | succ levels ih =>
    refine ⟨ne_nil_of_readPrimary, fun hs h => ?_, fun hs h => ?_⟩
    · exact scanInvariant_escapesClosed.here_readPrimary h hs
    · have hbelow : ∀ primary ∈ some (readPrimary Expression.builder d levels),
          ∃ primary' ∈ some (readPrimary Expression.builder d (levels + more)),
            GoesOn tail primary primary' := by
        intro primary hprimary
        obtain rfl := Option.some.inj hprimary
        exact ⟨_, rfl, ih⟩
      rw [Nat.add_right_comm]
      exact readStart_append_tail htail hbelow d hs h

/-- A text in parentheses is the start of a clause when a level is read from it up to the second
parenthesis, whatever is behind. -/
theorem spellsStart_group {d : Dialect} {levels : Nat} {field : String} {inside : List Char}
    {e : Expression}
    (h : ∀ rest, readLevel Expression.builder d.operator (readPrimary Expression.builder d levels)
      field (inside ++ ')' :: rest) = pure (e, ')' :: rest)) :
    SpellsStart d (levels + 1) field ('(' :: (inside ++ [')'])) e where
  starts := rfl
  reads := by
    intro rest _
    have hshape : '(' :: (inside ++ [')']) ++ rest = '(' :: (inside ++ ')' :: rest) := by simp
    rw [hshape]
    exact readPrimary_group d levels field (h rest)

/-- A text that is read to its end as a level of these clauses when `levels` nesting levels may be
opened in it. -/
def SpellsLevel (d : Dialect) (levels : Nat) (field : String) (s : List Char)
    (items : List (Item Expression)) : Prop :=
  readItems Expression.builder (readPrimary Expression.builder d levels) field s.length s =
    pure (items, [])

/-- A text is an expression when it is a level. -/
theorem Expression.ofText?_eq_ok_iff_spellsLevel {d : Dialect} {field text : String}
    {e : Expression} :
    ofText? d field text = .ok e ↔
      ∃ items, SpellsLevel d nestingLimit field text.toList items ∧
        levelOf d.operator items = e := by
  rw [ofText?_eq_ok_iff, readWhole, readLevel_builder]
  constructor
  · intro h
    obtain ⟨⟨e', rest⟩, hlevel, h⟩ := exists_pure_of_bind_eq_pure h
    obtain ⟨⟨items, rest'⟩, hitems, hlevel⟩ := exists_pure_of_bind_eq_pure hlevel
    obtain ⟨rfl, rfl⟩ := Prod.mk.inj (Except.ok.inj hlevel)
    dsimp only at h
    split at h
    · exact ⟨items, hitems, Except.ok.inj h⟩
    · cases h
  · rintro ⟨items, hitems, rfl⟩
    rw [SpellsLevel] at hitems
    rw [hitems]
    rfl

namespace SpellsLevel

variable {d : Dialect} {levels : Nat} {field : String} {s : List Char}
  {items : List (Item Expression)} (h : SpellsLevel d levels field s items) (hs : EscapesClosed s)

include h hs

/-- With more behind it, the level goes on. -/
theorem readItems_append_tail (more : Nat) {tail : List Char} (htail : EndsClause tail) :
    ∃ bound ≥ tail.length,
      readItems Expression.builder (readPrimary Expression.builder d (levels + more)) field
          (s ++ tail).length (s ++ tail) =
        readItems Expression.builder (readPrimary Expression.builder d (levels + more)) field
          bound tail >>= fun p => pure (items ++ p.1, p.2) := by
  obtain ⟨-, bound, hbound, hread⟩ := (goesOn_readPrimary d levels more htail).readItems_append_tail
    htail s.length tail.length hs h rfl
  rw [List.length_append]
  exact ⟨bound, hbound, hread⟩

/-- More levels than a text needs change nothing. -/
theorem add_levels (more : Nat) : SpellsLevel d (levels + more) field s items := by
  obtain ⟨bound, -, hread⟩ := h.readItems_append_tail hs more endsClause_nil
  rw [List.append_nil, readItems_nil, pure_bind, List.append_nil] at hread
  exact hread

/-- In parentheses a level is the start of a clause, one level further out. -/
theorem group : SpellsStart d (levels + 1) field ('(' :: (s ++ [')'])) (levelOf d.operator items) := by
  refine spellsStart_group fun rest => ?_
  obtain ⟨bound, -, hread⟩ := h.readItems_append_tail hs 0 (endsClause_close rest)
  rw [readItems_close, pure_bind, List.append_nil, Nat.add_zero] at hread
  rw [readLevel_builder, hread, pure_bind]

end SpellsLevel

end ProximityQuery
