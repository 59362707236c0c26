import Mathlib
import ProximityQuery.Proofs.Outcome

/-!
# Replaying calls

The calls that the recorder writes down are a program for any builder: the nodes of a tree, parts
before wholes, run on a stack of the results of earlier calls. A text is read with a builder just as
that program runs on it. A call that fails ends both with its error and after the same calls; when
none fails, the reading ends with the result that is left on the stack, or with the malformation
that the recorder met.
-/

namespace ProximityQuery

open Grammar

variable {m : Type → Type} [Monad m] {α ε σ : Type}

/-- A call of a hook, the clauses in it being made already. -/
inductive Call (α : Type)
  | term (field text : String)
  | multiTerm (field : String) (which : MultiTerm)
  | phrase (field raw : String) (slop : UInt32)
  | boolean (clauses : List (α × Occur))
  | boost (clause : α) (factor : Float32)

/-- Makes a call. -/
def Call.make (b : Builder m α) : Call α → m α
  | .term field text => b.term field text
  | .multiTerm field which => b.multiTerm field which
  | .phrase field raw slop => b.phrase field raw slop
  | .boolean clauses => b.boolean clauses
  | .boost clause factor => b.boost clause factor

/-- The call that made an expression, its clauses taken from the results of earlier calls, of which
the latest comes first, and the results left over. Nothing when there are too few of them. -/
def Expression.call? : Expression → List α → Option (Call α × List α)
  | .term field text, results => some (.term field text, results)
  | .multiTerm field which, results => some (.multiTerm field which, results)
  | .phrase field raw slop, results => some (.phrase field raw slop, results)
  | .boolean clauses, results =>
    let n := clauses.length
    if n ≤ results.length then
      some (.boolean ((results.take n).reverse.zip (clauses.map Prod.snd)), results.drop n)
    else none
  | .boost _ factor, clause :: results => some (.boost clause factor, results)
  | .boost _ _, [] => none

/-- Makes recorded calls one after the other. Each takes its clauses off the results and puts its
own result on them. -/
def replay (b : Builder m α) : List Expression → List α → m (Option (List α))
  | [], results => pure (some results)
  | e :: rest, results =>
    match e.call? results with
    | none => pure none
    | some (call, results) => do
      let made ← call.make b
      replay b rest (made :: results)

/-- The builder that writes down every call before it is made. -/
def Builder.watched (b : Builder (ExceptT ε (StateM σ)) α) :
    Builder (ExceptT ε (StateM (σ × List (Call α)))) α :=
  let watch (call : Call α) : ExceptT ε (StateM (σ × List (Call α))) α :=
    ExceptT.mk fun (s, calls) =>
      let (outcome, s) := (call.make b).run.run s
      (outcome, s, calls ++ [call])
  { term := fun field text => watch (.term field text)
    multiTerm := fun field which => watch (.multiTerm field which)
    phrase := fun field raw slop => watch (.phrase field raw slop)
    boolean := fun clauses => watch (.boolean clauses)
    boost := fun clause factor => watch (.boost clause factor) }

section

variable [LawfulMonad m]

/-- Replaying the calls of the clauses of a level builds them, and leaves their results on top. -/
theorem replay_callsOfClauses {b : Builder m α} {clauses : List (Expression × Occur)}
    (h : ∀ c ∈ clauses, ∀ more results, replay b (c.1.calls ++ more) results =
      c.1.build b >>= fun made => replay b more (made :: results))
    {more : List Expression} {results : List α} {next : List (α × Occur) → m (Option (List α))}
    (hnext : ∀ built : List (α × Occur), built.map Prod.snd = clauses.map Prod.snd →
      replay b more ((built.map Prod.fst).reverse ++ results) = next built) :
    replay b (Expression.callsOfClauses clauses ++ more) results =
      Expression.buildClauses b clauses >>= next := by
  induction clauses generalizing results next with
  | nil => simpa [Expression.callsOfClauses, Expression.buildClauses] using hnext [] rfl
  | cons c rest ih =>
    have hc := h c List.mem_cons_self
    have hrest := fun c hmem => h c (List.mem_cons_of_mem _ hmem)
    simp only [Expression.callsOfClauses, Expression.buildClauses, List.append_assoc, hc,
      bind_assoc, pure_bind]
    congr 1
    funext made
    refine ih hrest fun built hb => ?_
    rw [← hnext ((made, c.2) :: built) (by simp [hb])]
    simp

/-- Replaying the calls of an expression builds it, and leaves its result on top. -/
theorem replay_calls_append (b : Builder m α) (e : Expression) (more : List Expression)
    (results : List α) :
    replay b (e.calls ++ more) results =
      e.build b >>= fun made => replay b more (made :: results) := by
  induction e generalizing more results with
  | term field text => rfl
  | multiTerm field which => rfl
  | phrase field raw slop => rfl
  | boolean clauses ih =>
    rw [Expression.calls, List.append_assoc, Expression.build, bind_assoc]
    refine replay_callsOfClauses ih fun built hb => ?_
    have hlen : clauses.length = (built.map Prod.fst).reverse.length := by
      simpa using (congrArg List.length hb).symm
    have hcall : (Expression.boolean clauses).call? ((built.map Prod.fst).reverse ++ results) =
        some (.boolean built, results) := by
      simp only [Expression.call?, hlen, List.length_append, Nat.le_add_right, if_true,
        List.take_left, List.drop_left, List.reverse_reverse, ← hb]
      simp [List.zip_map']
    simp only [List.singleton_append, replay, hcall, Call.make]
  | boost clause factor ih =>
    rw [Expression.calls, List.append_assoc, ih, Expression.build, bind_assoc]
    rfl

/-- Replaying the calls of an expression leaves its result alone on the stack. -/
theorem replay_calls (b : Builder m α) (e : Expression) :
    replay b e.calls [] = e.build b >>= fun made => pure (some [made]) := by
  have h := replay_calls_append b e [] []
  rwa [List.append_nil] at h

/-- Replaying the calls of several expressions builds each, and never runs out of results. -/
theorem replay_flatMap_calls (b : Builder m α) (es : List Expression) (results : List α) :
    replay b (es.flatMap Expression.calls) results =
      es.mapM (Expression.build b) >>= fun made => pure (some (made.reverse ++ results)) := by
  induction es generalizing results with
  | nil => simp [replay]
  | cons e rest ih =>
    simp only [List.flatMap_cons, replay_calls_append, ih, List.mapM_cons, bind_assoc, pure_bind,
      List.reverse_cons, List.append_assoc, List.singleton_append]

/-- Expressions are built one after the other, and what they become is dropped. -/
theorem buildEach_eq_mapM (b : Builder m α) (es : List Expression) :
    Expression.buildEach b es = es.mapM (Expression.build b) >>= fun _ => pure () := by
  induction es with
  | nil => simp [Expression.buildEach]
  | cons e rest ih =>
    simp only [Expression.buildEach, ih, List.mapM_cons, bind_assoc, pure_bind]

end

open Expression in
/-- From a state, a text is read with a builder just as the calls that the recorder writes down are
replayed on it. -/
def ReadsAsReplayed (d : Dialect) (field text : String) (b : Builder (ExceptT ε (StateM σ)) α)
    (s : σ) : Prop :=
  match (replay b (callsOfText d field text) []).run.run s with
  | (.error error, last) => (b.ofText d field text).run.run s = (.error error, last)
  | (.ok results, last) =>
    match ofText? d field text with
    | .ok _ => ∃ root, results = some [root] ∧
        (b.ofText d field text).run.run s = (.ok (.ok root), last)
    | .error malformed => results.isSome = true ∧
        (b.ofText d field text).run.run s = (.ok (.error malformed), last)

/-- Two steps of a builder with a state, after the first has run. -/
theorem run_run_bind {β γ : Type} (x : ExceptT ε (StateM σ) β) (next : β → ExceptT ε (StateM σ) γ)
    (s : σ) :
    (x >>= next).run.run s =
      match x.run.run s with
      | (.ok v, last) => (next v).run.run last
      | (.error error, last) => (.error error, last) := by
  rw [ExceptT.run_bind, StateT.run_bind]
  rcases x.run.run s with ⟨error | v, last⟩
  · rfl
  · rfl

/-- Every builder reads a text as the recorded calls are replayed on it. -/
theorem readsAsReplayed (d : Dialect) (field text : String)
    (b : Builder (ExceptT ε (StateM σ)) α) (s : σ) : ReadsAsReplayed d field text b s := by
  obtain ⟨o, hresult, hcalls, hrun⟩ := exists_outcome_ofText d field text
  rw [ReadsAsReplayed, hresult, hcalls, hrun]
  cases o with
  | done e =>
    simp only [Outcome.calls, Outcome.result, replay_calls, run_run_bind, Outcome.run,
      ExceptT.run_lift, map_eq_pure_bind]
    rcases (e.build b).run.run s with ⟨error | root, last⟩
    · rfl
    · exact ⟨root, rfl, rfl⟩
  | stopped completed malformed =>
    simp only [Outcome.calls, Outcome.result, replay_flatMap_calls, run_run_bind, Outcome.run,
      ExceptT.run_bind_lift, buildEach_eq_mapM, bind_assoc]
    rcases (completed.mapM (Expression.build b)).run.run s with ⟨error | made, last⟩
    · rfl
    · exact ⟨rfl, rfl⟩

/-- A watched builder makes the calls that it writes down. -/
theorem run_make_watched (b : Builder (ExceptT ε (StateM σ)) α) (call : Call α) (s : σ)
    (calls : List (Call α)) :
    (call.make b.watched).run.run (s, calls) =
      (((call.make b).run.run s).1, ((call.make b).run.run s).2, calls ++ [call]) := by
  cases call <;> rfl

/-- Watching changes nothing in a replay. -/
theorem run_replay_watched (b : Builder (ExceptT ε (StateM σ)) α) (es : List Expression)
    (results : List α) (s : σ) (calls : List (Call α)) :
    ∃ made, (replay b.watched es results).run.run (s, calls) =
      (((replay b es results).run.run s).1, ((replay b es results).run.run s).2,
        calls ++ made) := by
  induction es generalizing results s calls with
  | nil =>
    refine ⟨[], ?_⟩
    rw [List.append_nil]
    rfl
  | cons e rest ih =>
    simp only [replay]
    cases e.call? results with
    | none =>
      refine ⟨[], ?_⟩
      rw [List.append_nil]
      rfl
    | some p =>
      obtain ⟨call, results⟩ := p
      simp only [run_run_bind, run_make_watched]
      rcases (call.make b).run.run s with ⟨error | made, last⟩
      · exact ⟨[call], rfl⟩
      · obtain ⟨others, h⟩ := ih (made :: results) last (calls ++ [call])
        exact ⟨call :: others, by simpa using h⟩

/-- Watching changes nothing in the reading of a text. -/
theorem run_ofText_watched (d : Dialect) (field text : String)
    (b : Builder (ExceptT ε (StateM σ)) α) (s : σ) :
    ((b.watched.ofText d field text).run.run (s, [])).map id Prod.fst =
      (b.ofText d field text).run.run s := by
  have hplain := readsAsReplayed d field text b s
  have hwatched := readsAsReplayed d field text b.watched (s, [])
  obtain ⟨made, hmade⟩ := run_replay_watched b (Expression.callsOfText d field text) [] s []
  rw [ReadsAsReplayed] at hplain
  rw [ReadsAsReplayed, hmade] at hwatched
  rcases hreplay : (replay b (Expression.callsOfText d field text) []).run.run s with
    ⟨error | results, last⟩
  · rw [hreplay] at hplain hwatched
    rw [hplain, hwatched]
    rfl
  · rw [hreplay] at hplain hwatched
    cases hresult : Expression.ofText? d field text with
    | error malformed =>
      rw [hresult] at hplain hwatched
      rw [hplain.2, hwatched.2]
      rfl
    | ok e =>
      rw [hresult] at hplain hwatched
      obtain ⟨root, rfl, hplain⟩ := hplain
      obtain ⟨root', hroot, hwatched⟩ := hwatched
      obtain rfl : root = root' := by simpa using hroot
      rw [hplain, hwatched]
      rfl

open Expression in
/-- When a text is an expression, the calls that the recorder writes down are the nodes of that
expression, parts before wholes and from left to right. Any other builder, from any state, reads the
text just as these calls are replayed on it, and so does the same builder while it is watched, which
shows the calls that it gets. -/
theorem ofText_eq_replay (d : Dialect) (field text : String) :
    (∀ e, ofText? d field text = .ok e → callsOfText d field text = e.calls) ∧
    ∀ {σ ε α : Type} (b : Builder (ExceptT ε (StateM σ)) α) (s : σ),
      ReadsAsReplayed d field text b s ∧
      ReadsAsReplayed d field text b.watched (s, []) ∧
      ((b.watched.ofText d field text).run.run (s, [])).map id Prod.fst =
        (b.ofText d field text).run.run s := by
  refine ⟨fun e he => callsOfText_eq_calls he, fun b s => ⟨?_, ?_, ?_⟩⟩
  · exact readsAsReplayed d field text b s
  · exact readsAsReplayed d field text b.watched (s, [])
  · exact run_ofText_watched d field text b s

open Expression in
/-- The calls for a group after a word: the word, the parts of the group, the group, the whole. -/
theorem replay_of_group :
    ∃ e, ofText? {} "body" "john (+mary \"a b\"~3)" = .ok e ∧
      callsOfText {} "body" "john (+mary \"a b\"~3)" = e.calls ∧ e.calls.length = 5 := by
  have he : ofText? {} "body" "john (+mary \"a b\"~3)" = .ok (.boolean [
      (.term "body" "john", .should),
      (.boolean [(.term "body" "mary", .must), (.phrase "body" "a b" 3, .should)], .should)]) := by
    cbv
  exact ⟨_, he, (ofText_eq_replay {} "body" _).1 _ he, rfl⟩

end ProximityQuery
