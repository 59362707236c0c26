import ProximityQuery.Proofs.Outcome

/-!
# Reading expressions

The builder whose clauses are the expressions themselves has no effects, so with it every reader is
a plain function from a text to an expression and the rest of the text. By the uniformity of the
readers that function tells what any builder makes of a text.
-/

namespace ProximityQuery

open Grammar

/-- Two steps succeed when the first does and then the second. -/
theorem exists_pure_of_bind_eq_pure {ε β γ : Type} {x : ExceptT ε Id β} {next : β → ExceptT ε Id γ}
    {r : γ} (h : x >>= next = pure r) : ∃ v, x = pure v ∧ next v = pure r := by
  rcases hx : x.run with error | v
  · have hthrow : x = throw error := hx
    rw [hthrow, ExceptT.bind_throw] at h
    cases h
  · have hpure : x = pure v := hx
    rw [hpure, pure_bind] at h
    exact ⟨v, hpure, h⟩

/-- What is read without hooks is read with any builder. -/
theorem eq_ok_of_liftM_eq_pure {ε β : Type} {x : Except ε β} {v : β}
    (h : (liftM x : ExceptT ε Id β) = pure v) : x = .ok v := by
  cases x with
  | error e => cases h
  | ok w => exact congrArg Except.ok (Except.ok.inj h)

namespace Expression

/-- An expression is built of itself. -/
theorem build_builder (e : Expression) : e.build builder = (pure e : Id Expression) := by
  induction e with
  | term field text => rfl
  | multiTerm field which => rfl
  | phrase field raw slop => rfl
  | boolean clauses ih =>
    have hclauses : buildClauses builder clauses = (pure clauses : Id _) := by
      induction clauses with
      | nil => rfl
      | cons c rest ihrest =>
        have hc := ih c List.mem_cons_self
        have hrest := ihrest fun c hmem => ih c (List.mem_cons_of_mem _ hmem)
        rw [buildClauses, hc, hrest]
        rfl
    rw [build, hclauses]
    rfl
  | boost clause factor ih =>
    rw [build, ih]
    rfl

/-- What the recorder tells of a text is what the plain reader makes of it. -/
theorem ofText?_eq_mapError (d : Dialect) (field text : String) :
    ofText? d field text =
      (readWhole builder d field text.toList).run.mapError (Failure.located text.toList) := by
  obtain ⟨o, hresult, -, hrun⟩ := exists_outcome_ofText d field text
  have hread : (readWhole builder d field text.toList).run.mapError (Failure.located text.toList) =
      (o.run builder (build builder)).run := hrun builder
  rw [hresult, hread]
  cases o with
  | done e => exact (congrArg Except.ok (build_builder e)).symm
  | stopped completed m => rfl

/-- A text is an expression when the plain reader reads it to its end. -/
theorem ofText?_eq_ok_iff {d : Dialect} {field text : String} {e : Expression} :
    ofText? d field text = .ok e ↔ readWhole builder d field text.toList = pure e := by
  have hpure : readWhole builder d field text.toList = pure e ↔
      (readWhole builder d field text.toList).run = .ok e := Iff.rfl
  rw [ofText?_eq_mapError, hpure]
  cases (readWhole builder d field text.toList).run with
  | error f => exact ⟨nofun, nofun⟩
  | ok value =>
    exact ⟨fun h => congrArg Except.ok (Except.ok.inj h),
      fun h => congrArg Except.ok (Except.ok.inj h)⟩

end Expression

/-- A level of one clause with nothing before it is that clause. -/
theorem levelOf_bare (op : Operator) {item : Item Expression} (h : item.mark.isBare = true) :
    levelOf op [item] = item.clause := by
  rw [levelOf, buildLevel, if_pos h]
  rfl

/-- Any other level is a boolean combination. -/
theorem levelOf_eq_boolean (op : Operator) {items : List (Item Expression)}
    (h : ∀ mark, items.map Item.mark = [mark] → mark.isBare = false) :
    levelOf op items = .boolean (clausesOf op items) := by
  rw [levelOf, buildLevel_eq_boolean _ op h]
  rfl

/-- A level is its only clause or a boolean combination. -/
theorem levelOf_cases (op : Operator) (items : List (Item Expression)) :
    (∃ item, items = [item] ∧ levelOf op items = item.clause) ∨
      levelOf op items = .boolean (clausesOf op items) := by
  by_cases hbare : ∃ item, items = [item] ∧ item.mark.isBare = true
  · obtain ⟨item, rfl, hmark⟩ := hbare
    exact .inl ⟨item, rfl, levelOf_bare op hmark⟩
  · refine .inr (levelOf_eq_boolean op fun mark hm => ?_)
    obtain ⟨item, rfl, rfl⟩ := List.map_eq_singleton_iff.mp hm
    simpa using fun h => hbare ⟨item, rfl, h⟩

/-- Every clause of a level plays one part. -/
theorem map_fst_clausesOf {α : Type} (op : Operator) (items : List (Item α)) :
    (clausesOf op items).map Prod.fst = items.map Item.clause := by
  rw [clausesOf, List.map_fst_zip]
  simp [length_occurs]

section

variable (field : String)

/-- A phrase is read up to its closing quote, and then its slop. -/
theorem readPhrase_builder (s inside : List Char) :
    readPhrase Expression.builder field s inside =
      match readQuoted inside with
      | none => throw { cause := .unterminatedPhrase, unread := s }
      | some (raw, rest) =>
        liftM (readSlop rest) >>= fun p => pure (.phrase field (String.ofList raw) p.1, p.2) := rfl

/-- A range is the construct of the interval that is read. -/
theorem readRange_builder (includesLower : Bool) (s inside : List Char) :
    readRange Expression.builder field includesLower s inside =
      liftM (readInterval includesLower s inside) >>= fun p =>
        pure (.multiTerm field (.range p.1), p.2) := rfl

end

/-- A boost stands behind a caret, and without one the clause stays as it is. -/
theorem readBoost_builder (clause : Expression) (s : List Char) :
    readBoost Expression.builder clause s =
      match s with
      | '^' :: rest =>
        liftM (readQuantity .boost Decimal.float32? rest) >>= fun p => pure (.boost clause p.1, p.2)
      | _ => pure (clause, s) := rfl

/-- A level is made of the items that are read. -/
theorem readLevel_builder (op : Operator) (primary : Primary Id Expression) (field : String)
    (s : List Char) :
    readLevel Expression.builder op primary field s =
      readItems Expression.builder primary field s.length s >>= fun p =>
        pure (levelOf op p.1, p.2) := rfl

end ProximityQuery
