import ProximityQuery.Grammar.Text

/-!
# Expressions

The syntax trees of queries. A builder gives a tree a meaning from the leaves up and from left to
right, one hook for each node; the nodes in that order are the calls of the tree. The recorder is
the builder that never fails: its clauses are the trees themselves, and it writes down every call as
the tree that the call makes.
-/

namespace ProximityQuery

/-- A construct of the query language, with the field it is about already settled. -/
inductive Expression
  /-- A bare word, its escapes removed. -/
  | term (field text : String)
  /-- A pattern, a word with an edit distance, or a range. -/
  | multiTerm (field : String) (which : MultiTerm)
  /-- The text between two quotes as it is written, and the slop after it. -/
  | phrase (field raw : String) (slop : UInt32)
  /-- The clauses of one level, with the parts they play. -/
  | boolean (clauses : List (Expression × Occur))
  /-- A clause with the number after its `^`. -/
  | boost (clause : Expression) (factor : Float32)
deriving Repr

namespace Expression

/-- Induction over syntax trees, with one hypothesis for every clause of a level. -/
@[elab_as_elim, induction_eliminator]
theorem ind {motive : Expression → Prop}
    (term : ∀ field text, motive (.term field text))
    (multiTerm : ∀ field which, motive (.multiTerm field which))
    (phrase : ∀ field raw slop, motive (.phrase field raw slop))
    (boolean : ∀ clauses, (∀ c ∈ clauses, motive c.1) → motive (.boolean clauses))
    (boost : ∀ clause factor, motive clause → motive (.boost clause factor))
    (e : Expression) : motive e :=
  match e with
  | .term field text => term field text
  | .multiTerm field which => multiTerm field which
  | .phrase field raw slop => phrase field raw slop
  | .boolean clauses => boolean clauses fun c _ => ind term multiTerm phrase boolean boost c.1
  | .boost clause factor => boost clause factor (ind term multiTerm phrase boolean boost clause)
termination_by sizeOf e
decreasing_by
  · have hlt := sizeOf_clause_lt ‹c ∈ clauses›
    simp only [Expression.boolean.sizeOf_spec]
    omega
  · simp only [Expression.boost.sizeOf_spec]
    omega

variable {m : Type → Type} [Monad m] {α : Type}

mutual

/-- The meaning of an expression: its parts first, from left to right, then the expression. -/
def build (b : Builder m α) : Expression → m α
  | .term field text => b.term field text
  | .multiTerm field which => b.multiTerm field which
  | .phrase field raw slop => b.phrase field raw slop
  | .boolean clauses => do
    let built ← buildClauses b clauses
    b.boolean built
  | .boost clause factor => do
    let built ← clause.build b
    b.boost built factor

/-- The meanings of the clauses of a level, from left to right. -/
def buildClauses (b : Builder m α) : List (Expression × Occur) → m (List (α × Occur))
  | [] => pure []
  | (clause, occur) :: rest => do
    let first ← clause.build b
    let others ← buildClauses b rest
    pure ((first, occur) :: others)

end

/-- Builds expressions one after the other, for the effect alone. -/
def buildEach (b : Builder m α) : List Expression → m Unit
  | [] => pure ()
  | e :: rest => do
    let _ ← e.build b
    buildEach b rest

mutual

/-- The calls that building an expression makes, each as the expression it makes: the nodes of the
tree, parts before wholes and from left to right. -/
def calls : Expression → List Expression
  | .term field text => [.term field text]
  | .multiTerm field which => [.multiTerm field which]
  | .phrase field raw slop => [.phrase field raw slop]
  | .boolean clauses => callsOfClauses clauses ++ [.boolean clauses]
  | .boost clause factor => clause.calls ++ [.boost clause factor]

/-- The calls that building the clauses of a level makes. -/
def callsOfClauses : List (Expression × Occur) → List Expression
  | [] => []
  | (clause, _) :: rest => clause.calls ++ callsOfClauses rest

end

/-- The calls of some clauses are those of the first, then those of the second, and so on. -/
theorem callsOfClauses_eq_flatMap (clauses : List (Expression × Occur)) :
    callsOfClauses clauses = clauses.flatMap fun c => c.1.calls := by
  induction clauses with
  | nil => rfl
  | cons c rest ih => rw [callsOfClauses, ih, List.flatMap_cons]

/-- The builder whose clauses are the expressions themselves. -/
def builder : Builder Id Expression where
  term := .term
  multiTerm := .multiTerm
  phrase := .phrase
  boolean := .boolean
  boost := .boost

/-- Writes a call down and gives the expression it makes. -/
def record (e : Expression) : StateM (List Expression) Expression :=
  fun log => (e, log ++ [e])

/-- The builder whose clauses are the expressions themselves, and which records its calls. -/
def recorder : Builder (StateM (List Expression)) Expression where
  term field text := record (.term field text)
  multiTerm field which := record (.multiTerm field which)
  phrase field raw slop := record (.phrase field raw slop)
  boolean clauses := record (.boolean clauses)
  boost clause factor := record (.boost clause factor)

/-- A recorded run over a level, given that over its clauses. -/
theorem run_buildClauses_recorder {clauses : List (Expression × Occur)}
    (h : ∀ c ∈ clauses, ∀ log, (c.1.build recorder).run log = (c.1, log ++ c.1.calls))
    (log : List Expression) :
    (buildClauses recorder clauses).run log = (clauses, log ++ callsOfClauses clauses) := by
  induction clauses generalizing log with
  | nil =>
    rw [callsOfClauses, List.append_nil]
    rfl
  | cons c rest ih =>
    have hc := h c List.mem_cons_self
    have hrest := ih fun c hmem => h c (List.mem_cons_of_mem _ hmem)
    simp only [buildClauses, callsOfClauses, StateT.run_bind, StateT.run_pure, hc, hrest,
      ← List.append_assoc]
    rfl

/-- The recorder makes the tree out of itself and records its nodes in order. -/
theorem run_build_recorder (e : Expression) (log : List Expression) :
    (e.build recorder).run log = (e, log ++ e.calls) := by
  induction e generalizing log with
  | term field text => rfl
  | multiTerm field which => rfl
  | phrase field raw slop => rfl
  | boolean clauses ih =>
    have h := run_buildClauses_recorder ih log
    simp only [build, calls, StateT.run_bind, h, ← List.append_assoc]
    rfl
  | boost clause factor ih =>
    simp only [build, calls, StateT.run_bind, ih, ← List.append_assoc]
    rfl

/-- Over several expressions the recorder records the calls of each. -/
theorem run_buildEach_recorder (es : List Expression) (log : List Expression) :
    (buildEach recorder es).run log = ((), log ++ es.flatMap calls) := by
  induction es generalizing log with
  | nil =>
    rw [List.flatMap_nil, List.append_nil]
    rfl
  | cons e rest ih =>
    simp only [buildEach, StateT.run_bind, run_build_recorder, List.flatMap_cons,
      ← List.append_assoc]
    exact ih (log ++ e.calls)

end Expression

end ProximityQuery
