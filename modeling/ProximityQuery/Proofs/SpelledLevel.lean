import ProximityQuery.Proofs.Spelling

/-!
# Spelled levels

How the clauses of a level are written so that the readers give them back: each with its `OR` and
its sign before it, and single blanks between them. A clause starts with an escape or a parenthesis,
so nothing of it is taken for a keyword or a sign.
-/

namespace ProximityQuery

open Grammar

/-- Whether a clause starts here that no conjunction, sign or blank can be mistaken for: with an
escape or a parenthesis. -/
def startsClause : List Char → Bool
  | [] => false
  | c :: _ => c = '\\' || c = '('

/-- What starts a clause still does when more text follows it. -/
theorem startsClause_append {s : List Char} (h : startsClause s = true) (rest : List Char) :
    startsClause (s ++ rest) = true := by
  cases s with
  | nil => cases h
  | cons c s => exact h

/-- A word in escapes starts a clause. -/
theorem startsClause_escaped (word : Word) : startsClause (escaped word) = true := by
  have hne : word.val.toList ≠ [] := by simpa using word.property
  obtain ⟨c, s, hword⟩ := List.exists_cons_of_ne_nil hne
  rw [escaped, hword]
  rfl

/-- Without its sign there is no boost. -/
theorem readBoost_of_ne {s : List Char} (h : ∀ rest, s ≠ '^' :: rest) (e : Expression) :
    readBoost Expression.builder e s = pure (e, s) := by
  rw [readBoost_builder]
  split
  next rest => exact absurd rfl (h rest)
  next => rfl

/-- Where a clause ends there is no boost. -/
theorem readBoost_of_endsClause (e : Expression) {rest : List Char} (h : EndsClause rest) :
    readBoost Expression.builder e rest = pure (e, rest) := by
  refine readBoost_of_ne ?_ e
  rintro digits rfl
  rcases h '^' rfl with hblank | hclose
  · cases hblank
  · cases hclose

section

variable (d : Dialect) (levels : Nat) (field : String) (s : List Char) (e : Expression)

/-- A text that is read as the start of a clause about `field` when `levels` more levels may be
opened, whatever can follow it. -/
structure SpellsStart : Prop where
  starts : startsClause s = true
  reads : ∀ {rest : List Char}, EndsStart rest →
    readPrimary Expression.builder d levels field (s ++ rest) = pure (e, rest)

/-- A text that is read as a clause about `field` with its boost. -/
structure SpellsClause : Prop where
  starts : startsClause s = true
  reads : ∀ {rest : List Char}, EndsClause rest →
    (readPrimary Expression.builder d levels field (s ++ rest) >>= fun p =>
      readBoost Expression.builder p.1 p.2) = pure (e, rest)

end

section

variable {d : Dialect} {levels : Nat} {field : String} {s : List Char} {e : Expression}

/-- The start of a clause is a clause without a boost. -/
theorem SpellsStart.spellsClause (h : SpellsStart d levels field s e) :
    SpellsClause d levels field s e where
  starts := h.starts
  reads := by
    intro rest hrest
    rw [h.reads hrest.endsStart, pure_bind]
    exact readBoost_of_endsClause e hrest

/-- A clause with a boost after its start. -/
theorem SpellsStart.boost (h : SpellsStart d levels field s e) {digits : List Char}
    {factor : Float32} (hdigits : ∀ c ∈ digits, isNumeral c = true)
    (hvalue : Decimal.float32? digits = some factor) :
    SpellsClause d levels field (s ++ '^' :: digits) (.boost e factor) where
  starts := startsClause_append h.starts _
  reads := by
    intro rest hrest
    have hstart := h.reads (endsStart_boost (digits ++ rest))
    have hquantity := readQuantity_append .boost hdigits hvalue hrest.endsStart.isNumeral
    have hshape : s ++ '^' :: digits ++ rest = s ++ '^' :: (digits ++ rest) := by simp
    rw [hshape, hstart, pure_bind, readBoost_builder]
    simp only [hquantity]
    rfl

/-- A word in escapes is a term. -/
theorem spellsStart_word (d : Dialect) (levels : Nat) (field : String) (word : Word) :
    SpellsStart d levels field (escaped word) (.term field word) where
  starts := startsClause_escaped word
  reads := readPrimary_word d levels field word.property

/-- A name in escapes before a value opens one level. -/
theorem SpellsStart.named (field : String) (name : Word) {value : List Char}
    (hvalue : lacksValue value = false)
    (hread : ∀ {rest : List Char}, EndsStart rest →
      readPrimary Expression.builder d levels name (value ++ rest) = pure (e, rest)) :
    SpellsStart d (levels + 1) field (escaped name ++ ':' :: value) e where
  starts := startsClause_append (startsClause_escaped name) _
  reads := by
    intro rest hrest
    have hlacks := lacksValue_append hvalue rest
    have hnamed := readPrimary_named d levels field name.property hlacks
    have hshape : escaped name ++ ':' :: value ++ rest =
        escaped name ++ ':' :: (value ++ rest) := by
      simp
    rw [hshape, hnamed, hread hrest]

/-- A phrase about a named field. -/
theorem spellsStart_phrase (d : Dialect) (levels : Nat) (field : String) (name : Word)
    {raw : List Char} (hraw : Paired raw) (slop : UInt32) :
    SpellsStart d (levels + 1) field
      (escaped name ++ ':' :: '"' :: (raw ++ '"' :: '~' :: numeral slop))
      (.phrase name (String.ofList raw) slop) := by
  refine .named field name rfl fun {rest} hrest => ?_
  have hphrase := readPrimary_phrase d levels name hraw slop hrest
  have hshape : '"' :: (raw ++ '"' :: '~' :: numeral slop) ++ rest =
      '"' :: (raw ++ '"' :: '~' :: (numeral slop ++ rest)) := by
    simp
  rw [hshape, hphrase]

end

/-- An `OR` before a clause, if there is one. -/
def joinText (joined : Bool) : List Char :=
  if joined then ['O', 'R', ' '] else []

/-- The sign before a clause. -/
def signText : Option Modifier → List Char
  | none => []
  | some .required => ['+']
  | some .prohibited => ['-']

/-- The mark of a clause with an `OR` or a sign before it. -/
def markOf (joined : Bool) (modifier : Option Modifier) : Mark where
  conjunction := if joined then some .or else none
  modifier := modifier

/-- Whether a clause with what stands before it may start here: neither a blank nor the end of the
level is taken for a part of it. -/
def StartsItem (text : List Char) : Prop :=
  ∃ c s, text = c :: s ∧ isBlank c = false ∧ c ≠ ')'

/-- A clause may start with the mark that is written before it. -/
theorem startsItem_marked {s : List Char} (hs : startsClause s = true) (joined : Bool)
    (modifier : Option Modifier) : StartsItem (joinText joined ++ signText modifier ++ s) := by
  cases s with
  | nil => cases hs
  | cons c s =>
    have hc : c = '\\' ∨ c = '(' := by simpa [startsClause] using hs
    have hstart : isBlank c = false ∧ c ≠ ')' := by
      rcases hc with rfl | rfl
      · decide
      · decide
    cases joined with
    | true => exact ⟨'O', 'R' :: ' ' :: (signText modifier ++ c :: s), rfl, by decide⟩
    | false =>
      rcases modifier with _ | _ | _
      · exact ⟨c, s, rfl, hstart⟩
      · exact ⟨'+', c :: s, rfl, by decide⟩
      · exact ⟨'-', c :: s, rfl, by decide⟩

section

variable (primary : Primary Id Expression) (field : String)

/-- What stands before a clause is read back. -/
theorem readItem_marked (joined : Bool) (modifier : Option Modifier) {s : List Char}
    (hs : startsClause s = true) :
    readItem Expression.builder primary field (joinText joined ++ signText modifier ++ s) =
      (primary field s >>= fun p => readBoost Expression.builder p.1 p.2) >>= fun q =>
        pure ({ mark := markOf joined modifier, clause := q.1 }, q.2) := by
  rw [bind_assoc]
  cases s with
  | nil => cases hs
  | cons c s =>
    have hc : c = '\\' ∨ c = '(' := by simpa [startsClause] using hs
    rcases hc with rfl | rfl
    · cases joined <;> rcases modifier with _ | _ | _ <;> rfl
    · cases joined <;> rcases modifier with _ | _ | _ <;> rfl

/-- A text that is read as a clause with what stands before it, whatever clause follows. -/
structure SpellsItem (text : List Char) (item : Item Expression) : Prop where
  starts : StartsItem text
  reads : ∀ {rest : List Char}, EndsClause rest →
    readItem Expression.builder primary field (text ++ rest) = pure (item, rest)

variable {primary field}

/-- A clause may have an `OR` and a sign before it. -/
theorem SpellsClause.spellsItem {d : Dialect} {levels : Nat} {field : String} {s : List Char}
    {e : Expression} (h : SpellsClause d levels field s e) (joined : Bool)
    (modifier : Option Modifier) :
    SpellsItem (readPrimary Expression.builder d levels) field
      (joinText joined ++ signText modifier ++ s)
      { mark := markOf joined modifier, clause := e } where
  starts := startsItem_marked h.starts joined modifier
  reads := by
    intro rest hrest
    have hstarts := startsClause_append h.starts rest
    have hread := h.reads hrest
    rw [List.append_assoc, readItem_marked _ field joined modifier hstarts, hread, pure_bind]

/-- One clause at a time is read, whatever blanks stand before it. -/
theorem readItems_cons {t : List Char} (h : StartsItem t) (bound : Nat) (rest : List Char) :
    readItems Expression.builder primary field (bound + 1) (' ' :: (t ++ rest)) =
      readItem Expression.builder primary field (t ++ rest) >>= fun p =>
        readItems Expression.builder primary field bound p.2 >>= fun q =>
          pure (p.1 :: q.1, q.2) := by
  obtain ⟨c, s, rfl, hblank, hclose⟩ := h
  have hskip : skipBlanks (' ' :: (c :: s ++ rest)) = c :: s ++ rest :=
    skipBlanks_cons_of_not_blank hblank _
  have hend : endsLevel (c :: s ++ rest) = false := by simpa [endsLevel] using hclose
  simp only [readItems, hskip, hend, Bool.false_eq_true, if_false]

/-- Clauses with a blank before each are read back one by one, up to the end of the level. -/
theorem readItems_flatMap {texts : List (List Char)} {items : List (Item Expression)}
    (h : List.Forall₂ (SpellsItem primary field) texts items) {tail : List Char}
    (htail : tail = [] ∨ ∃ s, tail = ')' :: s) {bound : Nat} (hbound : texts.length ≤ bound) :
    readItems Expression.builder primary field bound (texts.flatMap (' ' :: ·) ++ tail) =
      pure (items, tail) := by
  have hend : skipBlanks tail = tail ∧ endsLevel tail = true := by
    rcases htail with rfl | ⟨s, rfl⟩
    · exact ⟨rfl, rfl⟩
    · exact ⟨rfl, rfl⟩
  have hclause : EndsClause tail := by
    rcases htail with rfl | ⟨s, rfl⟩
    · exact endsClause_nil
    · exact endsClause_close s
  induction h generalizing bound with
  | nil =>
    rw [List.flatMap_nil, List.nil_append]
    cases bound with
    | zero => rfl
    | succ bound => simp only [readItems, hend.1, hend.2, if_true]
  | @cons text item texts items hitem hitems ih =>
    cases bound with
    | zero => cases hbound
    | succ bound =>
      have hrest : EndsClause (texts.flatMap (' ' :: ·) ++ tail) := by
        cases texts with
        | nil => exact hclause
        | cons t texts => exact endsClause_blank _
      have hothers := ih (Nat.le_of_succ_le_succ hbound)
      rw [List.flatMap_cons, List.append_assoc, List.cons_append, readItems_cons hitem.starts,
        hitem.reads hrest, pure_bind, hothers, pure_bind]

theorem intercalate_blank (t : List Char) (texts : List (List Char)) :
    [' '].intercalate (t :: texts) = t ++ texts.flatMap (' ' :: ·) := by
  induction texts generalizing t with
  | nil => simp
  | cons u texts ih =>
    rw [List.intercalate_cons_cons, ih u, List.flatMap_cons]
    simp

/-- Every clause takes a character at least. -/
theorem length_le_length_flatMap (texts : List (List Char)) :
    texts.length ≤ (texts.flatMap (' ' :: ·)).length := by
  induction texts with
  | nil => simp
  | cons t texts ih =>
    simp only [List.flatMap_cons, List.length_append, List.length_cons]
    omega

/-- A blank before the first clause changes nothing, and the length of the text bounds the number of
clauses. -/
theorem exists_readItems_intercalate {texts : List (List Char)} (h : ∀ t ∈ texts, StartsItem t)
    (tail : List Char) :
    ∃ bound, texts.length ≤ bound ∧
      readItems Expression.builder primary field ([' '].intercalate texts ++ tail).length
          ([' '].intercalate texts ++ tail) =
        readItems Expression.builder primary field bound (texts.flatMap (' ' :: ·) ++ tail) := by
  cases texts with
  | nil => exact ⟨tail.length, Nat.zero_le _, rfl⟩
  | cons t texts =>
    rw [intercalate_blank]
    obtain ⟨c, s, rfl, -, -⟩ := h t List.mem_cons_self
    refine ⟨(c :: s ++ texts.flatMap (' ' :: ·) ++ tail).length, ?_, rfl⟩
    have htexts := length_le_length_flatMap texts
    simp only [List.length_append, List.length_cons]
    omega

/-- A level of clauses with single blanks between them is read back. -/
theorem readLevel_intercalate (op : Operator) {texts : List (List Char)}
    {items : List (Item Expression)} (h : List.Forall₂ (SpellsItem primary field) texts items)
    {tail : List Char} (htail : tail = [] ∨ ∃ s, tail = ')' :: s) :
    readLevel Expression.builder op primary field ([' '].intercalate texts ++ tail) =
      pure (levelOf op items, tail) := by
  have hstarts : ∀ t ∈ texts, StartsItem t := by
    intro t ht
    obtain ⟨i, hi, rfl⟩ := List.getElem_of_mem ht
    exact (h.get hi (h.length_eq ▸ hi)).starts
  obtain ⟨bound, hbound, hread⟩ := exists_readItems_intercalate hstarts tail
  rw [readLevel_builder, hread, readItems_flatMap h htail hbound, pure_bind]

end

/-- A text of clauses with single blanks between them is the expression of its level. -/
theorem Expression.ofText?_intercalate {d : Dialect} {field : String} {texts : List (List Char)}
    {items : List (Item Expression)}
    (h : List.Forall₂ (SpellsItem (readPrimary builder d nestingLimit) field) texts items) :
    ofText? d field (String.ofList ([' '].intercalate texts)) =
      .ok (levelOf d.operator items) := by
  have hlevel := readLevel_intercalate d.operator h (.inl rfl)
  rw [List.append_nil] at hlevel
  rw [ofText?_eq_ok_iff, String.toList_ofList, readWhole, hlevel]
  rfl

/-- A text of one clause with nothing before it is the expression of that clause. -/
theorem SpellsClause.ofText? {d : Dialect} {field : String} {s : List Char} {e : Expression}
    (h : SpellsClause d nestingLimit field s e) :
    Expression.ofText? d field (String.ofList s) = .ok e := by
  have hitem := h.spellsItem false none
  have htext : joinText false ++ signText none ++ s = s := rfl
  have hjoin : [' '].intercalate [s] = s := List.intercalate_singleton
  rw [htext] at hitem
  have hlevel := Expression.ofText?_intercalate (.cons hitem .nil)
  rw [hjoin, levelOf_bare _ rfl] at hlevel
  exact hlevel

section

variable {d : Dialect} {levels : Nat} {field : String}

/-- A level in parentheses opens one level. -/
theorem spellsStart_level {texts : List (List Char)} {items : List (Item Expression)}
    (h : List.Forall₂ (SpellsItem (readPrimary Expression.builder d levels) field) texts items) :
    SpellsStart d (levels + 1) field ('(' :: ([' '].intercalate texts ++ [')']))
      (levelOf d.operator items) where
  starts := rfl
  reads := by
    intro rest _
    have htail : ')' :: rest = [] ∨ ∃ s, ')' :: rest = ')' :: s := .inr ⟨rest, rfl⟩
    have hlevel := readLevel_intercalate d.operator h htail
    have hshape : '(' :: ([' '].intercalate texts ++ [')']) ++ rest =
        '(' :: ([' '].intercalate texts ++ ')' :: rest) := by
      simp
    rw [hshape]
    exact readPrimary_group d levels field hlevel

/-- A clause in parentheses is that clause, one level further out. -/
theorem SpellsClause.group {s : List Char} {e : Expression} (h : SpellsClause d levels field s e) :
    SpellsStart d (levels + 1) field ('(' :: (s ++ [')'])) e := by
  have hlevel := spellsStart_level (.cons (h.spellsItem false none) .nil)
  have htext : joinText false ++ signText none ++ s = s := rfl
  have hjoin : [' '].intercalate [s] = s := List.intercalate_singleton
  rw [htext, hjoin, levelOf_bare _ rfl] at hlevel
  exact hlevel

end

/-- Where no mark changes the clause before it, each clause has the occur of its own mark. -/
theorem occursAfter_eq_cons_map (op : Operator) (pending : Occur) {marks : List Mark}
    (h : ∀ mark ∈ marks, ∀ o : Occur, o.revise op mark.conjunction = o) :
    occursAfter op pending marks = pending :: marks.map (Mark.occur op) := by
  induction marks generalizing pending with
  | nil => rfl
  | cons mark marks ih =>
    have hmark := h mark List.mem_cons_self pending
    have hrest := ih (mark.occur op) fun m hm => h m (List.mem_cons_of_mem _ hm)
    rw [occursAfter, hmark, hrest, List.map_cons]

/-- Where no conjunction changes the part of the clause before it, every clause has the part that
its own mark gives it. -/
theorem occurs_eq_map (op : Operator) {marks : List Mark}
    (h : ∀ mark ∈ marks, ∀ o : Occur, o.revise op mark.conjunction = o) :
    occurs op marks = marks.map (Mark.occur op) := by
  cases marks with
  | nil => rfl
  | cons mark marks =>
    exact occursAfter_eq_cons_map op _ fun m hm => h m (List.mem_cons_of_mem _ hm)

/-- A level that is not a single bare clause, and in which no conjunction changes the part of the
clause before it, is the combination of its clauses in the parts that their marks give them. -/
theorem levelOf_map {β : Type} (op : Operator) (mark : β → Mark) (clause : β → Expression)
    {xs : List β} (hbare : ∀ x, xs = [x] → (mark x).isBare = false)
    (hfixed : ∀ x ∈ xs, ∀ o : Occur, o.revise op (mark x).conjunction = o) :
    levelOf op (xs.map fun x => { mark := mark x, clause := clause x }) =
      .boolean (xs.map fun x => (clause x, (mark x).occur op)) := by
  have hmarks : (xs.map fun x => ({ mark := mark x, clause := clause x } : Item Expression)).map
      Item.mark = xs.map mark := by
    rw [List.map_map]
    rfl
  have hclauses : (xs.map fun x => ({ mark := mark x, clause := clause x } : Item Expression)).map
      Item.clause = xs.map clause := by
    rw [List.map_map]
    rfl
  have hlevel : ∀ m, (xs.map fun x => ({ mark := mark x, clause := clause x } :
      Item Expression)).map Item.mark = [m] → m.isBare = false := by
    intro m hm
    rw [hmarks] at hm
    obtain ⟨x, hx, rfl⟩ := List.map_eq_singleton_iff.mp hm
    exact hbare x hx
  have hoccurs : occurs op (xs.map mark) = (xs.map mark).map (Mark.occur op) := by
    refine occurs_eq_map op fun m hm o => ?_
    obtain ⟨x, hx, rfl⟩ := List.mem_map.mp hm
    exact hfixed x hx o
  rw [levelOf_eq_boolean op hlevel, clausesOf, hmarks, hclauses, hoccurs, List.map_map,
    List.zip_map']
  rfl

end ProximityQuery
