import ProximityQuery.Proofs.SpelledLevel

/-!
# Texts nested too deeply

A text that opens more nesting levels than are left is refused, whatever follows it: a field when
its value has no level left, a group when its inside has none, and a level when one of its clauses
is refused and the others are read.
-/

namespace ProximityQuery

open Grammar

/-- Whether a text is refused for its nesting. -/
def Malformation.isNesting : Malformation → Bool
  | .groupsTooDeep | .fieldsTooDeep => true
  | _ => false

/-- Whether a reading stops where the nesting goes too deep. -/
def StopsAtNesting {α : Type} (reading : ExceptT Failure Id α) : Prop :=
  ∃ f : Failure, f.cause.isNesting = true ∧ reading = throw f

/-- What comes after the stop does not matter. -/
theorem StopsAtNesting.bind {α β : Type} {reading : ExceptT Failure Id α}
    (h : StopsAtNesting reading) (next : α → ExceptT Failure Id β) :
    StopsAtNesting (reading >>= next) := by
  obtain ⟨f, hf, rfl⟩ := h
  exact ⟨f, hf, ExceptT.bind_throw next⟩

/-- A text that starts a clause and is refused when `levels` more levels may be opened. -/
structure NestsTooDeep (d : Dialect) (levels : Nat) (field : String) (s : List Char) : Prop where
  starts : startsClause s = true
  stops : ∀ rest,
    StopsAtNesting (readPrimary Expression.builder d levels field (s ++ rest))

section

variable {d : Dialect} {levels : Nat} {field : String} {s : List Char}

/-- A field has no value where no level is left. -/
theorem nestsTooDeep_named (d : Dialect) (field : String) (name : Word) {value : List Char}
    (hvalue : lacksValue value = false) :
    NestsTooDeep d 0 field (escaped name ++ ':' :: value) where
  starts := startsClause_append (startsClause_escaped name) _
  stops := by
    intro rest
    have hlacks := lacksValue_append hvalue rest
    have hletters := map_escaped_ne_nil name.property
    have hreadable := isReadable_escaped name.val
    have hstart := readStart_written d none field hletters hreadable (':' :: (value ++ rest))
    have hfield := readWordClause_field d none field hletters hreadable (any_isWild_escaped _)
      (value ++ rest)
    have hshape : escaped name ++ ':' :: value ++ rest =
        (name.val.toList.map Letter.escaped).flatMap Letter.written ++ ':' :: (value ++ rest) := by
      rw [← escaped_eq_written]
      simp
    have hread : readPrimary Expression.builder d 0 field (escaped name ++ ':' :: value ++ rest) =
        throw { cause := .fieldsTooDeep, unread := escaped name ++ ':' :: value ++ rest } := by
      rw [hshape, readPrimary, hstart, hfield, readFieldValue, hlacks]
      rfl
    exact ⟨_, rfl, hread⟩

/-- A group has no inside where no level is left. -/
theorem nestsTooDeep_group (d : Dialect) (field : String) (inside : List Char) :
    NestsTooDeep d 0 field ('(' :: inside) where
  starts := rfl
  stops := fun rest => ⟨{ cause := .groupsTooDeep, unread := '(' :: (inside ++ rest) }, rfl, rfl⟩

/-- What follows a text does not make it less deep. -/
theorem NestsTooDeep.append (h : NestsTooDeep d levels field s) (t : List Char) :
    NestsTooDeep d levels field (s ++ t) where
  starts := startsClause_append h.starts t
  stops := by
    intro rest
    rw [List.append_assoc]
    exact h.stops (t ++ rest)

end

section

variable (primary : Primary Id Expression) (field : String)

/-- A text of a clause with what stands before it that is refused for its nesting. -/
structure RefusesItem (text : List Char) : Prop where
  starts : StartsItem text
  stops : ∀ rest, StopsAtNesting (readItem Expression.builder primary field (text ++ rest))

variable {primary field}

/-- A clause that is nested too deeply is refused with whatever stands before it. -/
theorem NestsTooDeep.refusesItem {d : Dialect} {levels : Nat} {s : List Char}
    (h : NestsTooDeep d levels field s) (joined : Bool) (modifier : Option Modifier) :
    RefusesItem (readPrimary Expression.builder d levels) field
      (joinText joined ++ signText modifier ++ s) where
  starts := startsItem_marked h.starts joined modifier
  stops := by
    intro rest
    have hstarts := startsClause_append h.starts rest
    rw [List.append_assoc, readItem_marked _ field joined modifier hstarts]
    exact ((h.stops rest).bind _).bind _

/-- Clauses are read one by one up to the first that is refused. -/
theorem stopsAtNesting_readItems {texts : List (List Char)}
    (hall : ∀ t ∈ texts, RefusesItem primary field t ∨ ∃ item, SpellsItem primary field t item)
    (hsome : ∃ t ∈ texts, RefusesItem primary field t) (tail : List Char) {bound : Nat}
    (hbound : texts.length ≤ bound) :
    StopsAtNesting (readItems Expression.builder primary field bound
      (texts.flatMap (' ' :: ·) ++ tail)) := by
  induction texts generalizing bound with
  | nil =>
    obtain ⟨t, ht, -⟩ := hsome
    cases ht
  | cons t texts ih =>
    cases bound with
    | zero => cases hbound
    | succ bound =>
      rw [List.flatMap_cons, List.append_assoc, List.cons_append]
      by_cases hrefused : RefusesItem primary field t
      · rw [readItems_cons hrefused.starts]
        exact (hrefused.stops _).bind _
      · obtain ⟨item, hitem⟩ := (hall t List.mem_cons_self).resolve_left hrefused
        obtain ⟨u, hu, hlater⟩ := hsome
        have hmem : u ∈ texts := by
          rcases List.mem_cons.mp hu with rfl | hmem
          · exact absurd hlater hrefused
          · exact hmem
        have hrest : EndsClause (texts.flatMap (' ' :: ·) ++ tail) := by
          cases texts with
          | nil => cases hmem
          | cons v texts => exact endsClause_blank _
        have hstops := ih (fun v hv => hall v (List.mem_cons_of_mem _ hv)) ⟨u, hmem, hlater⟩
          (Nat.le_of_succ_le_succ hbound)
        rw [readItems_cons hitem.starts, hitem.reads hrest, pure_bind]
        exact hstops.bind _

/-- A level is refused when one of its clauses is and the others are read. -/
theorem stopsAtNesting_readLevel (op : Operator) {texts : List (List Char)}
    (hall : ∀ t ∈ texts, RefusesItem primary field t ∨ ∃ item, SpellsItem primary field t item)
    (hsome : ∃ t ∈ texts, RefusesItem primary field t) (tail : List Char) :
    StopsAtNesting
      (readLevel Expression.builder op primary field ([' '].intercalate texts ++ tail)) := by
  have hstarts : ∀ t ∈ texts, StartsItem t := by
    intro t ht
    rcases hall t ht with hrefused | ⟨item, hitem⟩
    · exact hrefused.starts
    · exact hitem.starts
  obtain ⟨bound, hbound, hread⟩ := exists_readItems_intercalate hstarts tail
  have hitems := stopsAtNesting_readItems hall hsome tail hbound
  rw [readLevel_builder, hread]
  exact hitems.bind _

end

section

variable {d : Dialect} {levels : Nat} {field : String}

/-- A group is refused when its level is. -/
theorem nestsTooDeep_level {texts : List (List Char)}
    (hall : ∀ t ∈ texts, RefusesItem (readPrimary Expression.builder d levels) field t ∨
      ∃ item, SpellsItem (readPrimary Expression.builder d levels) field t item)
    (hsome : ∃ t ∈ texts, RefusesItem (readPrimary Expression.builder d levels) field t) :
    NestsTooDeep d (levels + 1) field ('(' :: ([' '].intercalate texts ++ [')'])) where
  starts := rfl
  stops := by
    intro rest
    have hlevel := stopsAtNesting_readLevel d.operator hall hsome (')' :: rest)
    have hshape : '(' :: ([' '].intercalate texts ++ [')']) ++ rest =
        '(' :: ([' '].intercalate texts ++ ')' :: rest) := by
      simp
    rw [hshape]
    exact hlevel.bind _

/-- A level of one clause is refused when that clause is. -/
theorem NestsTooDeep.stopsAtNesting_readLevel {s : List Char}
    (h : NestsTooDeep d levels field s) (tail : List Char) :
    StopsAtNesting (readLevel Expression.builder d.operator
      (readPrimary Expression.builder d levels) field (s ++ tail)) := by
  have hitem := h.refusesItem false none
  have hall : ∀ t ∈ [s], RefusesItem (readPrimary Expression.builder d levels) field t ∨
      ∃ item, SpellsItem (readPrimary Expression.builder d levels) field t item := by
    intro t ht
    obtain rfl := List.mem_singleton.mp ht
    exact .inl hitem
  have hlevel := ProximityQuery.stopsAtNesting_readLevel d.operator hall
    ⟨s, List.mem_singleton.mpr rfl, hitem⟩ tail
  rw [List.intercalate_singleton] at hlevel
  exact hlevel

/-- A clause in parentheses is refused when it is. -/
theorem NestsTooDeep.group {s : List Char} (h : NestsTooDeep d levels field s) :
    NestsTooDeep d (levels + 1) field ('(' :: (s ++ [')'])) where
  starts := rfl
  stops := by
    intro rest
    have hlevel := h.stopsAtNesting_readLevel (')' :: rest)
    have hshape : '(' :: (s ++ [')']) ++ rest = '(' :: (s ++ ')' :: rest) := by simp
    rw [hshape]
    exact hlevel.bind _

/-- A whole text that is nested too deeply is malformed for that. -/
theorem NestsTooDeep.ofText? {s : List Char} (h : NestsTooDeep d nestingLimit field s) :
    ∃ m, Expression.ofText? d field (String.ofList s) = .error m ∧ m.cause.isNesting = true := by
  have hlevel := h.stopsAtNesting_readLevel []
  rw [List.append_nil] at hlevel
  have hwhole : StopsAtNesting (readWhole Expression.builder d field s) := by
    rw [readWhole]
    exact hlevel.bind _
  obtain ⟨f, hcause, hread⟩ := hwhole
  refine ⟨f.located s, ?_, hcause⟩
  rw [Expression.ofText?_eq_mapError, String.toList_ofList, hread]
  rfl

end

end ProximityQuery
