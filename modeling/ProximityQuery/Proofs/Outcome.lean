import ProximityQuery.Proofs.Expression

/-!
# One reading for every builder

The grammar never looks at what a builder makes. So a text has one outcome, an expression or the
expressions completed before a malformation, and reading the text with any builder is building the
expressions of that outcome: the same hooks in the same order, whatever they do.
-/

namespace ProximityQuery

open Grammar

/-- How a reading ends, whatever the builder. -/
inductive Outcome (ε β : Type)
  /-- Something is read, made of expressions. -/
  | done (value : β)
  /-- A malformation is met after these expressions are complete. -/
  | stopped (completed : List Expression) (error : ε)

variable {m : Type → Type} [Monad m] {α β γ δ ε : Type}

/-- What a builder makes of an outcome. -/
def Outcome.run (b : Builder m α) (make : β → m γ) : Outcome ε β → ExceptT ε m γ
  | .done value => ExceptT.lift (make value)
  | .stopped completed error => do
    ExceptT.lift (Expression.buildEach b completed)
    throw error

/-- Makes something of what was read and keeps the rest of the text. -/
def keepRest (make : β → m γ) (p : β × List Char) : m (γ × List Char) := do
  let made ← make p.1
  pure (made, p.2)

/-- The meaning of a clause with what is written before it. -/
def Grammar.Item.build (b : Builder m α) (item : Item Expression) : m (Item α) := do
  let clause ← item.clause.build b
  pure { mark := item.mark, clause }

/-- The meanings of the clauses of a level with what is written before them. -/
def Grammar.Item.buildAll (b : Builder m α) : List (Item Expression) → m (List (Item α))
  | [] => pure []
  | item :: rest => do
    let first ← item.build b
    let others ← buildAll b rest
    pure (first :: others)

/-- A builder with its monad. -/
structure AnyBuilder where
  /-- The monad in which the hooks run. -/
  M : Type → Type
  /-- What the hooks make. -/
  Clause : Type
  [monad : Monad M]
  [lawful : LawfulMonad M]
  /-- The hooks. -/
  hooks : Builder M Clause

attribute [instance] AnyBuilder.monad AnyBuilder.lawful

/-- The reading has one outcome for all builders; `make` gives what is read its meaning. -/
def UniformOf {F : Type → Type} (make : (b : AnyBuilder) → F Expression → b.M (F b.Clause))
    (scan : (b : AnyBuilder) → ExceptT Failure b.M (F b.Clause × List Char)) : Prop :=
  ∃ o : Outcome Failure (F Expression × List Char),
    ∀ b : AnyBuilder, scan b = o.run b.hooks (keepRest (make b))

/-- The reading of a clause has one outcome for all builders. -/
abbrev Uniform (scan : (b : AnyBuilder) → ExceptT Failure b.M (b.Clause × List Char)) : Prop :=
  UniformOf (F := fun α => α) (fun b e => e.build b.hooks) scan

/-- The expression of a level. -/
def levelOf (op : Operator) (items : List (Item Expression)) : Expression :=
  Id.run (buildLevel Expression.builder op items)

/-- A step that succeeds may be taken among the hooks. -/
theorem liftM_ok (x : β) : (liftM (Except.ok x : Except ε β) : ExceptT ε m β) = pure x := rfl

/-- So may a step that fails. -/
theorem liftM_error (e : ε) : (liftM (Except.error e : Except ε β) : ExceptT ε m β) = throw e := rfl

/-- Calling a hook is a lifted step. -/
theorem liftM_hook (x : m β) : (liftM x : ExceptT ε m β) = ExceptT.lift x := rfl

section

variable [LawfulMonad m]

/-- Hooks that are called one after the other are lifted one after the other. -/
theorem lift_bind (x : m β) (next : β → m γ) :
    (ExceptT.lift (x >>= next) : ExceptT ε m γ) =
      ExceptT.lift x >>= fun a => ExceptT.lift (next a) := by
  apply ExceptT.ext
  simp

/-- A finished outcome makes what was read and passes the rest on. -/
theorem Outcome.run_done (b : Builder m α) (make : β → m γ) (value : β) (rest : List Char) :
    (Outcome.done (value, rest) : Outcome ε _).run b (keepRest make) =
      ExceptT.lift (make value) >>= fun made => pure (made, rest) := by
  simp only [run, keepRest, lift_bind, ExceptT.lift_pure]

/-- Nothing is built when a reading stops before its first clause is complete. -/
theorem Outcome.run_stopped_nil (b : Builder m α) (make : β → m γ) (error : ε) :
    (Outcome.stopped [] error).run b make = throw error := by
  simp [run, Expression.buildEach]

/-- The clauses that are complete when a reading stops are built first. -/
theorem Outcome.run_stopped_cons (b : Builder m α) (make : β → m γ) (e : Expression)
    (completed : List Expression) (error : ε) :
    (Outcome.stopped (e :: completed) error).run b make =
      ExceptT.lift (e.build b) >>= fun _ => (Outcome.stopped completed error).run b make := by
  simp only [run, Expression.buildEach, lift_bind, bind_assoc]

/-- Nothing follows a malformation. -/
theorem Outcome.run_stopped_bind (b : Builder m α) (make : β → m γ) {β' : Type} (other : β' → m δ)
    (completed : List Expression) (error : ε) (next : γ → ExceptT ε m δ) :
    ((Outcome.stopped completed error).run b make >>= next) =
      (Outcome.stopped completed error).run b other := by
  simp only [run, bind_assoc, ExceptT.bind_throw]

/-- Building the items of a level builds their clauses, and what comes next sees marks and
clauses alone. -/
theorem Grammar.Item.buildAll_bind (b : Builder m α) {items : List (Item Expression)}
    {parts : List Occur} (hlen : parts.length = items.length)
    {next : List (Item α) → m γ} {next' : List (α × Occur) → m γ}
    (h : ∀ built : List (Item α), built.map Item.mark = items.map Item.mark →
      next built = next' ((built.map Item.clause).zip parts)) :
    (buildAll b items >>= next) =
      Expression.buildClauses b ((items.map Item.clause).zip parts) >>= next' := by
  induction items generalizing parts next next' with
  | nil =>
    simpa [buildAll, Expression.buildClauses] using h [] rfl
  | cons item items ih =>
    cases parts with
    | nil => simp at hlen
    | cons part parts =>
      have hlen' : parts.length = items.length := by simpa using hlen
      simp only [buildAll, build, List.map_cons, List.zip_cons_cons, Expression.buildClauses,
        bind_assoc, pure_bind]
      congr 1
      funext clause
      have hstep : ∀ built : List (Item α), built.map Item.mark = items.map Item.mark →
          next (⟨item.mark, clause⟩ :: built) =
            (fun rest => next' ((clause, part) :: rest)) ((built.map Item.clause).zip parts) := by
        intro built hb
        exact h (⟨item.mark, clause⟩ :: built) (by simp [hb])
      exact ih hlen' hstep

/-- The clause of a level of built items is what is built of the expression of the level. -/
theorem buildAll_bind_buildLevel (b : Builder m α) (op : Operator)
    (items : List (Item Expression)) :
    (Item.buildAll b items >>= buildLevel b op) = (levelOf op items).build b := by
  by_cases hbare : ∃ item, items = [item] ∧ item.mark.isBare = true
  · obtain ⟨item, rfl, hmark⟩ := hbare
    simp [Item.buildAll, Item.build, buildLevel, levelOf, hmark]
  · have hmark : ∀ mark, items.map Item.mark = [mark] → mark.isBare = false := by
      intro mark hm
      obtain ⟨item, rfl, rfl⟩ := List.map_eq_singleton_iff.mp hm
      simpa using fun h => hbare ⟨item, rfl, h⟩
    have hlevel : levelOf op items = .boolean (clausesOf op items) := by
      rw [levelOf, buildLevel_eq_boolean _ op hmark]
      rfl
    have hlen : (occurs op (items.map Item.mark)).length = items.length := by
      rw [length_occurs, List.length_map]
    rw [hlevel, Expression.build, clausesOf]
    refine Item.buildAll_bind b hlen fun built hb => ?_
    rw [buildLevel_eq_boolean b op (by rwa [hb]), clausesOf, hb]

end

/-- One outcome for all builders shows a reading uniform. -/
theorem UniformOf.intro {F : Type → Type}
    {make : (b : AnyBuilder) → F Expression → b.M (F b.Clause)}
    {scan : (b : AnyBuilder) → ExceptT Failure b.M (F b.Clause × List Char)}
    (o : Outcome Failure (F Expression × List Char))
    (h : ∀ b : AnyBuilder, scan b = o.run b.hooks (keepRest (make b))) : UniformOf make scan :=
  ⟨o, h⟩

/-- A uniform reading has one outcome for all builders. -/
theorem UniformOf.outcome {F : Type → Type}
    {make : (b : AnyBuilder) → F Expression → b.M (F b.Clause)}
    {scan : (b : AnyBuilder) → ExceptT Failure b.M (F b.Clause × List Char)}
    (h : UniformOf make scan) :
    ∃ o : Outcome Failure (F Expression × List Char),
      ∀ b : AnyBuilder, scan b = o.run b.hooks (keepRest (make b)) :=
  h

/-- A malformation that is met at once. -/
theorem uniform_throw (f : Failure) : Uniform fun _ => throw f := by
  refine .intro (.stopped [] f) fun b => ?_
  rw [Outcome.run_stopped_nil]

/-- A single hook with the rest of the text. -/
theorem uniform_hook (e : Expression) (rest : List Char) :
    Uniform fun b => ExceptT.lift (e.build b.hooks) >>= fun clause => pure (clause, rest) := by
  refine .intro (.done (e, rest)) fun b => ?_
  rw [Outcome.run_done]

/-- A malformation that is met after a hook. -/
theorem uniform_hook_throw (e : Expression) (f : Failure) :
    Uniform fun b => ExceptT.lift (e.build b.hooks) >>= fun _ => throw f := by
  refine .intro (.stopped [e] f) fun b => ?_
  rw [Outcome.run_stopped_cons]
  simp only [Outcome.run_stopped_nil]

/-- What is read without hooks comes before the hooks. -/
theorem uniform_liftM_bind {x : Except Failure β}
    {next : (b : AnyBuilder) → β → ExceptT Failure b.M (b.Clause × List Char)}
    (h : ∀ value, Uniform fun b => next b value) : Uniform fun b => liftM x >>= next b := by
  cases x with
  | error f =>
    simp only [liftM_error, ExceptT.bind_throw]
    exact uniform_throw f
  | ok value =>
    simp only [liftM_ok, pure_bind]
    exact h value

/-- Two readings one after the other. The second starts from what the first has read, once that is
built, and is not reached when the first meets a malformation. -/
theorem UniformOf.bind {F G : Type → Type}
    {make : (b : AnyBuilder) → F Expression → b.M (F b.Clause)}
    {make' : (b : AnyBuilder) → G Expression → b.M (G b.Clause)}
    {scan : (b : AnyBuilder) → ExceptT Failure b.M (F b.Clause × List Char)}
    {next : (b : AnyBuilder) → F b.Clause × List Char →
      ExceptT Failure b.M (G b.Clause × List Char)}
    (h : UniformOf make scan)
    (hnext : ∀ value rest, UniformOf make' fun b =>
      ExceptT.lift (make b value) >>= fun made => next b (made, rest)) :
    UniformOf make' fun b => scan b >>= next b := by
  obtain ⟨o, ho⟩ := h.outcome
  cases o with
  | stopped completed f =>
    refine .intro (.stopped completed f) fun b => ?_
    rw [ho]
    exact Outcome.run_stopped_bind ..
  | done p =>
    obtain ⟨value, rest⟩ := p
    obtain ⟨o, ho'⟩ := (hnext value rest).outcome
    refine .intro o fun b => ?_
    rw [ho, Outcome.run_done, bind_assoc, ← ho' b]
    simp only [pure_bind]

/-- Reading a phrase is uniform. -/
theorem uniform_readPhrase (field : String) (s inside : List Char) :
    Uniform fun b => readPhrase b.hooks field s inside := by
  cases hq : readQuoted inside with
  | none =>
    simp only [readPhrase, hq]
    exact uniform_throw _
  | some p =>
    simp only [readPhrase, hq]
    exact uniform_liftM_bind fun q => uniform_hook (.phrase field (String.ofList p.1) q.1) q.2

/-- Reading a range is uniform. -/
theorem uniform_readRange (field : String) (includesLower : Bool) (s inside : List Char) :
    Uniform fun b => readRange b.hooks field includesLower s inside :=
  uniform_liftM_bind fun q => uniform_hook (.multiTerm field (.range q.1)) q.2

/-- A boost after a clause that is already built. -/
theorem uniform_readBoost (e : Expression) (s : List Char) :
    Uniform fun b =>
      ExceptT.lift (e.build b.hooks) >>= fun clause => readBoost b.hooks clause s := by
  by_cases hs : ∃ rest, s = '^' :: rest
  · obtain ⟨rest, rfl⟩ := hs
    cases hn : readQuantity .boost Decimal.float32? rest with
    | error f =>
      simp only [readBoost, hn, liftM_error, ExceptT.bind_throw]
      exact uniform_hook_throw e f
    | ok p =>
      obtain ⟨factor, rest⟩ := p
      refine .intro (.done (.boost e factor, rest)) fun b => ?_
      simp only [readBoost, hn, liftM_ok, liftM_hook, pure_bind, Outcome.run_done,
        Expression.build, lift_bind, bind_assoc]
  · refine .intro (.done (e, s)) fun b => ?_
    have hplain : ∀ clause, readBoost b.hooks clause s = pure (clause, s) := by
      intro clause
      unfold readBoost
      split
      · exact absurd ⟨_, rfl⟩ hs
      · rfl
    simp only [hplain, Outcome.run_done]

/-- A reader of the start of a clause for every builder. -/
abbrev PrimaryFamily := (b : AnyBuilder) → Primary b.M b.Clause

section

variable {primary : PrimaryFamily} (hp : ∀ field s, Uniform fun b => primary b field s)

include hp

/-- The start of a clause and its boost. -/
theorem uniform_start_boost (field : String) (s : List Char) :
    Uniform fun b => primary b field s >>= fun p => readBoost b.hooks p.1 p.2 :=
  (hp field s).bind fun e rest => uniform_readBoost e rest

/-- If the clauses of a level are read uniformly, so are they with what stands before them. -/
theorem uniform_readItem (field : String) (s : List Char) :
    UniformOf (fun b => Item.build b.hooks) fun b => readItem b.hooks (primary b) field s := by
  rcases hc : readConjunction s with ⟨conjunction, r⟩
  by_cases hend : (conjunction.isSome && endsLevel (skipBlanks r)) = true
  · refine .intro (.stopped [] { cause := .missingClause, unread := skipBlanks r }) fun b => ?_
    simp only [readItem, hc, hend, if_true, Outcome.run_stopped_nil]
  · rcases hm : readModifier (skipBlanks r) with ⟨modifier, r'⟩
    have hitem : ∀ b : AnyBuilder, readItem b.hooks (primary b) field s =
        (primary b field (skipBlanks r') >>= fun p => readBoost b.hooks p.1 p.2) >>= fun q =>
          pure ({ mark := { conjunction, modifier }, clause := q.1 }, q.2) := by
      intro b
      simp only [readItem, hc, hend, hm, bind_assoc, Bool.false_eq_true, if_false]
    simp only [hitem]
    refine (uniform_start_boost hp field (skipBlanks r')).bind fun clause rest => ?_
    refine .intro (.done ({ mark := { conjunction, modifier }, clause }, rest)) fun b => ?_
    simp only [Outcome.run_done, Item.build, lift_bind, ExceptT.lift_pure, bind_assoc, pure_bind]

/-- And so are all of them in a row, by induction over the clauses that the text has room for. -/
theorem uniform_readItems (field : String) (bound : Nat) (s : List Char) :
    UniformOf (F := fun α => List (Item α)) (fun b => Item.buildAll b.hooks)
      fun b => readItems b.hooks (primary b) field bound s := by
  induction bound generalizing s with
  | zero =>
    refine .intro (.done ([], s)) fun b => ?_
    simp only [readItems, Outcome.run_done, Item.buildAll, ExceptT.lift_pure, pure_bind]
  | succ bound ih =>
    by_cases hend : endsLevel (skipBlanks s) = true
    · refine .intro (.done ([], skipBlanks s)) fun b => ?_
      simp only [readItems, hend, if_true, Outcome.run_done, Item.buildAll, ExceptT.lift_pure,
        pure_bind]
    simp only [readItems, hend, Bool.false_eq_true, if_false]
    refine (uniform_readItem hp field (skipBlanks s)).bind fun item rest => ?_
    obtain ⟨others, hothers⟩ := (ih rest).outcome
    cases others with
    | stopped completed f =>
      -- the clause is complete before the malformation is met, so its hooks come first
      refine .intro (.stopped (item.clause :: completed) f) fun b => ?_
      simp only [hothers, Outcome.run_stopped_cons, Item.build, lift_bind, ExceptT.lift_pure,
        bind_assoc, pure_bind]
      congr 1
      funext clause
      exact Outcome.run_stopped_bind ..
    | done p =>
      obtain ⟨items, rest'⟩ := p
      refine .intro (.done (item :: items, rest')) fun b => ?_
      simp only [hothers, Outcome.run_done, Item.buildAll, lift_bind, ExceptT.lift_pure,
        bind_assoc, pure_bind]

/-- A level is read uniformly if its clauses are. -/
theorem uniform_readLevel (op : Operator) (field : String) (s : List Char) :
    Uniform fun b => readLevel b.hooks op (primary b) field s := by
  refine (uniform_readItems hp field s.length s).bind fun items rest => ?_
  refine .intro (.done (levelOf op items, rest)) fun b => ?_
  simp only [Outcome.run_done, ← buildAll_bind_buildLevel, lift_bind, bind_assoc]

end

/-- The reader below opens no level for any builder, or reads clauses uniformly. -/
def UniformBelow (below : (b : AnyBuilder) → Option (Primary b.M b.Clause)) : Prop :=
  (∀ b, below b = none) ∨
    ∃ primary : PrimaryFamily, (∀ b, below b = some (primary b)) ∧
      ∀ field s, Uniform fun b => primary b field s

section

variable {below : (b : AnyBuilder) → Option (Primary b.M b.Clause)} (hb : UniformBelow below)

include hb

/-- A group is read uniformly if the levels below are. -/
theorem uniform_readGroup (op : Operator) (field : String) (s inside : List Char) :
    Uniform fun b => readGroup b.hooks op (below b) field s inside := by
  rcases hb with hnone | ⟨primary, hsome, hp⟩
  · simp only [readGroup, hnone]
    exact uniform_throw _
  simp only [readGroup, hsome]
  refine (uniform_readLevel hp op field inside).bind fun group rest => ?_
  by_cases hclose : ∃ after, rest = ')' :: after
  · obtain ⟨after, rfl⟩ := hclose
    exact uniform_hook group after
  · -- the group is built before its missing end is noticed
    obtain ⟨o, ho⟩ := (uniform_hook_throw group { cause := .missingClose, unread := rest }).outcome
    refine .intro o fun b => ?_
    rw [← ho b]
    congr 1
    funext clause
    split
    next after hafter => exact absurd ⟨after, hafter⟩ hclose
    next => rfl

/-- So is what stands behind the name of a field. -/
theorem uniform_readFieldValue (field : String) (s value : List Char) :
    Uniform fun b => readFieldValue (below b) field s value := by
  by_cases hv : lacksValue value = true
  · simp only [readFieldValue, hv, if_true]
    exact uniform_throw _
  rcases hb with hnone | ⟨primary, hsome, hp⟩
  · simp only [readFieldValue, hv, hnone, Bool.false_eq_true, if_false]
    exact uniform_throw _
  simp only [readFieldValue, hv, hsome, Bool.false_eq_true, if_false]
  exact hp field value

/-- A clause that starts with a word is read uniformly if the levels below are. -/
theorem uniform_readWordClause (d : Dialect) (field : String) (s : List Char) :
    Uniform fun b => readWordClause b.hooks d (below b) field s := by
  rcases hw : readWord s with ⟨letters, rest⟩
  by_cases hempty : letters.isEmpty = true
  · simp only [readWordClause, hw, hempty, if_true]
    exact uniform_throw _
  simp only [readWordClause, hw, hempty, Bool.false_eq_true, if_false]
  split
  · exact uniform_readFieldValue hb _ _ _
  · exact uniform_liftM_bind fun q =>
      uniform_hook (.multiTerm field (.fuzzy (String.ofList (letters.map Letter.char)) q.1)) q.2
  · exact uniform_hook (.multiTerm field
      (.wildcard (String.ofList (letters.flatMap Letter.written)))) _
  · exact uniform_hook (.term field (String.ofList (letters.map Letter.char))) _

/-- So is any clause that is not yet boosted. -/
theorem uniform_readStart (d : Dialect) (field : String) (s : List Char) :
    Uniform fun b => readStart b.hooks d (below b) field s := by
  unfold readStart
  split
  · exact uniform_readGroup hb d.operator field _ _
  · exact uniform_readPhrase field _ _
  · exact uniform_readRange field true _ _
  · exact uniform_readRange field false _ _
  · exact uniform_readWordClause hb d field _

end

/-- Every clause is read uniformly, by induction over the levels that are left. -/
theorem uniform_readPrimary (d : Dialect) (levels : Nat) (field : String) (s : List Char) :
    Uniform fun b => readPrimary b.hooks d levels field s := by
  induction levels generalizing field s with
  | zero => exact uniform_readStart (.inl fun _ => rfl) d field s
  | succ levels ih =>
    exact uniform_readStart (.inr ⟨_, fun _ => rfl, ih⟩) d field s

/-- A whole text has one outcome for all builders. -/
theorem exists_outcome_readWhole (d : Dialect) (field : String) (s : List Char) :
    ∃ o : Outcome Failure Expression, ∀ b : AnyBuilder,
      readWhole b.hooks d field s = o.run b.hooks (Expression.build b.hooks) := by
  obtain ⟨o, ho⟩ :=
    (uniform_readLevel (uniform_readPrimary d nestingLimit) d.operator field s).outcome
  rcases o with ⟨e, rest⟩ | ⟨completed, f⟩
  · cases rest with
    | nil =>
      refine ⟨.done e, fun b => ?_⟩
      simp only [readWhole, ho, Outcome.run_done, bind_assoc, pure_bind, bind_pure]
      rfl
    | cons c rest =>
      refine ⟨.stopped [e] { cause := .unexpectedClose, unread := c :: rest }, fun b => ?_⟩
      simp only [readWhole, ho, Outcome.run_done, bind_assoc, pure_bind,
        Outcome.run_stopped_cons, Outcome.run_stopped_nil]
  · refine ⟨.stopped completed f, fun b => ?_⟩
    simp only [readWhole, ho]
    exact Outcome.run_stopped_bind ..

/-- Locating the failure of an outcome in the whole text. -/
def Outcome.located (whole : List Char) : Outcome Failure β → Outcome Malformed β
  | .done value => .done value
  | .stopped completed f => .stopped completed (f.located whole)

/-- A failure may be located before the outcome is run or after. -/
theorem Outcome.adapt_run [LawfulMonad m] (b : Builder m α) (make : β → m γ) (whole : List Char)
    (o : Outcome Failure β) :
    (o.run b make).adapt (Failure.located whole) = (o.located whole).run b make := by
  apply ExceptT.ext
  cases o with
  | done value =>
    simp only [run, located, ExceptT.run_adapt, ExceptT.run_lift, Functor.map_map]
    rfl
  | stopped completed f =>
    simp only [run, located, ExceptT.run_adapt, ExceptT.run_bind_lift, ExceptT.run_throw, map_bind,
      map_pure]
    rfl

namespace Outcome

/-- The expression that was read, or what stopped the reading. -/
def result : Outcome ε Expression → Except ε Expression
  | .done e => .ok e
  | .stopped _ error => .error error

/-- The calls of hooks that the reading makes, in order. -/
def calls : Outcome ε Expression → List Expression
  | .done e => e.calls
  | .stopped completed _ => completed.flatMap Expression.calls

/-- The recorder writes the calls of an outcome down. -/
theorem run_recorder (o : Outcome ε Expression) :
    ((o.run Expression.recorder (Expression.build Expression.recorder)).run).run [] =
      (o.result, o.calls) := by
  cases o with
  | done e =>
    simp only [run, ExceptT.run_lift, StateT.run_map, Expression.run_build_recorder]
    rfl
  | stopped completed error =>
    simp only [run, ExceptT.run_bind_lift, StateT.run_bind, Expression.run_buildEach_recorder]
    rfl

end Outcome

namespace Expression

/-- The expression that a text is, or where the text is malformed. -/
def ofText? (d : Dialect) (field text : String) : Except Malformed Expression :=
  ((recorder.ofText d field text).run []).1

/-- The calls of hooks that reading a text makes, in order, whether or not it is malformed. -/
def callsOfText (d : Dialect) (field text : String) : List Expression :=
  ((recorder.ofText d field text).run []).2

end Expression

/-- A text has one outcome, which the recorder shows. What any builder makes of the text is what it
makes of the outcome. -/
theorem exists_outcome_ofText (d : Dialect) (field text : String) :
    ∃ o : Outcome Malformed Expression,
      Expression.ofText? d field text = o.result ∧
      Expression.callsOfText d field text = o.calls ∧
      ∀ {m : Type → Type} {α : Type} [Monad m] [LawfulMonad m] (b : Builder m α),
        b.ofText d field text = (o.run b (Expression.build b)).run := by
  obtain ⟨o, ho⟩ := exists_outcome_readWhole d field text.toList
  have hrun : ∀ {m : Type → Type} {α : Type} [Monad m] [LawfulMonad m] (b : Builder m α),
      b.ofText d field text = ((o.located text.toList).run b (Expression.build b)).run := by
    intro m α _ _ b
    rw [Builder.ofText, ← Outcome.adapt_run]
    exact congrArg _ (ho ⟨m, α, b⟩)
  have hrec : (Expression.recorder.ofText d field text).run [] =
      ((o.located text.toList).result, (o.located text.toList).calls) := by
    rw [hrun]
    exact Outcome.run_recorder _
  exact ⟨o.located text.toList, congrArg Prod.fst hrec, congrArg Prod.snd hrec, hrun⟩

/-- The calls of a text that is an expression are those of the expression. -/
theorem Expression.callsOfText_eq_calls {d : Dialect} {field text : String} {e : Expression}
    (h : ofText? d field text = .ok e) : callsOfText d field text = e.calls := by
  obtain ⟨o, hresult, hcalls, -⟩ := exists_outcome_ofText d field text
  rw [hresult] at h
  rw [hcalls]
  cases o with
  | done value =>
    have hvalue : value = e := by simpa [Outcome.result] using h
    rw [Outcome.calls, hvalue]
  | stopped completed error => cases h

end ProximityQuery
