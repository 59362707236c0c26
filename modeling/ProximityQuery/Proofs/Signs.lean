import Mathlib
import ProximityQuery.Parser
import ProximityQuery.Proofs.Reading
import ProximityQuery.Proofs.Replay

/-!
# Signs and conjunctions

The part that a clause plays is decided by its own sign and by the conjunctions on its two sides;
nothing farther away has a say. A prohibited clause is always prohibited. A required one is
required, unless clauses are required by default and an `OR` follows: the `OR` makes the clause
optional without regard to its sign. All parts of a level have a closed form in these terms, and a
level is combined unless it is a single clause with nothing written before it.
-/

namespace ProximityQuery

open Grammar

/-- The next clause's conjunction decides the part of the pending one. -/
theorem getElem?_zero_occursAfter (op : Operator) (pending : Occur) (ms : List Mark) :
    (occursAfter op pending ms)[0]? = some (pending.revise op (ms[0]?.bind Mark.conjunction)) := by
  cases ms with
  | nil => rfl
  | cons next ms => rfl

/-- Every clause but the first has the occur of its own mark, revised by the conjunction
behind it. -/
theorem getElem?_succ_occursAfter (op : Operator) (pending : Occur) (ms : List Mark) (i : Nat) :
    (occursAfter op pending ms)[i + 1]? =
      ms[i]?.map fun m => (m.occur op).revise op (ms[i + 1]?.bind Mark.conjunction) := by
  induction ms generalizing pending i with
  | nil => rfl
  | cons m ms ih =>
    rw [occursAfter, List.getElem?_cons_succ]
    cases i with
    | zero => exact getElem?_zero_occursAfter op (m.occur op) ms
    | succ i => exact ih (m.occur op) i

/-- The part of a clause is decided by what is written before it and by the conjunction before the
next clause. -/
theorem getElem?_occurs (op : Operator) (ms : List Mark) (i : Nat) :
    (occurs op ms)[i]? =
      ms[i]?.map fun m => (m.occur op).revise op (ms[i + 1]?.bind Mark.conjunction) := by
  cases ms with
  | nil => rfl
  | cons m ms =>
    rw [occurs]
    cases i with
    | zero => exact getElem?_zero_occursAfter op (m.occur op) ms
    | succ i => exact getElem?_succ_occursAfter op (m.occur op) ms i

variable {α : Type}

/-- The conjunction between a clause and the next one. -/
def conjunctionAfter (items : List (Item α)) (i : Nat) : Option Conjunction :=
  items[i + 1]?.bind fun next => next.mark.conjunction

/-- Each clause of a level with its part. -/
theorem getElem?_clausesOf (op : Operator) (items : List (Item α)) (i : Nat) :
    (clausesOf op items)[i]? = items[i]?.map fun item =>
      (item.clause, (item.mark.occur op).revise op (conjunctionAfter items i)) := by
  have hnext : (items.map Item.mark)[i + 1]?.bind Mark.conjunction = conjunctionAfter items i := by
    rw [List.getElem?_map, Option.bind_map]
    rfl
  rw [clausesOf, List.zip, List.getElem?_zipWith', getElem?_occurs, hnext, List.getElem?_map,
    List.getElem?_map]
  cases items[i]? with
  | none => rfl
  | some item => rfl

/-- No conjunction changes the part of a prohibited clause. -/
theorem revise_occur_of_prohibited (op : Operator) (next : Option Conjunction) {m : Mark}
    (h : m.modifier = some .prohibited) : (m.occur op).revise op next = .mustNot := by
  rw [Mark.occur.eq_def, h]
  cases next with
  | none => rfl
  | some conjunction => cases conjunction <;> simp [Occur.revise]

/-- An `OR` makes a required clause optional where clauses are required by default. -/
theorem revise_occur_of_required (op : Operator) (next : Option Conjunction) {m : Mark}
    (h : m.modifier = some .required) :
    (m.occur op).revise op next =
      if op = .and ∧ next = some .or then .should else .must := by
  rw [Mark.occur.eq_def, h]
  cases next with
  | none => simp [Occur.revise]
  | some conjunction => cases conjunction <;> simp [Occur.revise]

/-- A level with a sign in it is a boolean combination for any builder. There a prohibited clause is
prohibited, and a required one is required unless an `OR` follows where clauses are required by
default. Neither depends on what is written before the clause or behind the next one. -/
theorem part_of_signed_clause {m : Type → Type} [Monad m] (b : Builder m α) (op : Operator)
    (items : List (Item α)) {i : Nat} {item : Item α} {sign : Modifier}
    (hitem : items[i]? = some item) (hsign : item.mark.modifier = some sign) :
    buildLevel b op items = b.boolean (clausesOf op items) ∧
      (clausesOf op items)[i]? = some (item.clause,
        match sign with
        | .prohibited => .mustNot
        | .required => if op = .and ∧ conjunctionAfter items i = some .or then .should else .must)
    := by
  have hbare : item.mark.isBare = false := by simp [Mark.isBare, hsign]
  constructor
  · refine buildLevel_eq_boolean b op fun mark hmark => ?_
    obtain ⟨sole, rfl, rfl⟩ := List.map_eq_singleton_iff.mp hmark
    obtain rfl := List.mem_singleton.mp (List.mem_of_getElem? hitem)
    exact hbare
  · rw [getElem?_clausesOf, hitem, Option.map_some]
    cases sign with
    | prohibited => rw [revise_occur_of_prohibited op _ hsign]
    | required => rw [revise_occur_of_required op _ hsign]

/-- The sign before `a` in `+a OR b` is lost where clauses are required by default. -/
theorem part_of_signed_clause_before_or :
    (clausesOf .and [⟨⟨none, some .required⟩, Expression.term "body" "a"⟩,
      ⟨⟨some .or, none⟩, .term "body" "b"⟩])[0]? = some (.term "body" "a", .should) :=
  (part_of_signed_clause Expression.builder .and [⟨⟨none, some .required⟩, .term "body" "a"⟩,
    ⟨⟨some .or, none⟩, .term "body" "b"⟩] (i := 0) rfl rfl).2

/-- Where clauses are required by default, the first clause of `+a OR b` is read with its sign and
is optional all the same. -/
theorem required_clause_made_optional :
    ∃ items, readItems Expression.builder (readPrimary Expression.builder { operator := .and } nestingLimit)
        "body" 7 "+a OR b".toList = pure (items, []) ∧
      (items[0]?.bind fun item => item.mark.modifier) = some .required ∧
      Parser.capture { config := { defaultOperator := .and } } "+a OR b" =
        .ok (.boolean [(.term { field := "body", text := "a" }, .should),
          (.term { field := "body", text := "b" }, .should)], {}) := by
  refine ⟨[⟨⟨none, some .required⟩, .term "body" "a"⟩, ⟨⟨some .or, none⟩, .term "body" "b"⟩],
    ?_, rfl, ?_⟩
  · cbv
  · cbv

/-- The part of a clause in closed form, from the conjunction before the next clause and what is
written before the clause itself. -/
def Mark.part (op : Operator) (next : Option Conjunction) (m : Mark) : Occur :=
  match m.modifier with
  | some .prohibited => .mustNot
  | some .required => if op = .and ∧ next = some .or then .should else .must
  | none =>
    match op with
    | .or => if m.conjunction = some .and ∨ next = some .and then .must else .should
    | .and =>
      match next with
      | some .and => .must
      | some .or => .should
      | none => if m.conjunction = some .or then .should else .must

/-- The clauses of a level, each in the part that its own mark and the next conjunction give it. -/
def partsOf (op : Operator) (items : List (Item α)) : List (α × Occur) :=
  items.mapIdx fun i item => (item.clause, item.mark.part op (conjunctionAfter items i))

/-- The clause of a level that is a single one with nothing written before it. -/
def soleBare? : List (Item α) → Option α
  | [item] => if item.mark.isBare then some item.clause else none
  | _ => none

/-- The part at first and its revision by the next conjunction come to the closed form. -/
theorem revise_occur_eq_part (op : Operator) (next : Option Conjunction) (m : Mark) :
    (m.occur op).revise op next = m.part op next := by
  rcases hsign : m.modifier with _ | sign
  · obtain ⟨conjunction, modifier⟩ := m
    obtain rfl : modifier = none := hsign
    -- without a sign the two conjunctions and the operator leave eighteen cases
    cases op <;> rcases next with _ | _ | _ <;> rcases conjunction with _ | _ | _ <;> rfl
  · cases sign with
    | required =>
      have hrevised := revise_occur_of_required op next hsign
      rw [hrevised, Mark.part.eq_def, hsign]
    | prohibited =>
      have hrevised := revise_occur_of_prohibited op next hsign
      rw [hrevised, Mark.part.eq_def, hsign]

/-- The clauses of a level have the parts that their marks give them. -/
theorem clausesOf_eq_partsOf (op : Operator) (items : List (Item α)) :
    clausesOf op items = partsOf op items := by
  refine List.ext_getElem? fun i => ?_
  simp only [getElem?_clausesOf, partsOf, List.getElem?_mapIdx, revise_occur_eq_part]

/-- The part of a clause is a function of its own mark and the next conjunction. -/
theorem map_snd_getElem?_clausesOf (op : Operator) (items : List (Item α)) (i : Nat) :
    (clausesOf op items)[i]?.map Prod.snd =
      (items[i]?.map Item.mark).map (Mark.part op (conjunctionAfter items i)) := by
  rw [clausesOf_eq_partsOf, partsOf, List.getElem?_mapIdx, Option.map_map, Option.map_map]
  rfl

/-- A single clause with nothing written before it is the level, and any other level is combined. -/
theorem buildLevel_eq_partsOf {m : Type → Type} [Monad m] (b : Builder m α) (op : Operator)
    (items : List (Item α)) :
    buildLevel b op items =
      match soleBare? items with
      | some clause => pure clause
      | none => b.boolean (partsOf op items) := by
  rw [← clausesOf_eq_partsOf]
  match items with
  | [] => rfl
  | [item] =>
    cases hbare : item.mark.isBare with
    | true => simp [buildLevel, soleBare?, hbare]
    | false => simp [buildLevel, soleBare?, hbare]
  | _ :: _ :: _ => rfl

/-- Combining the clauses of a level is one call, and returning a single bare clause is none. -/
theorem calls_buildLevel_watched {σ ε : Type} (b : Builder (ExceptT ε (StateM σ)) α)
    (op : Operator) (items : List (Item α)) (s : σ) (calls : List (Call α)) :
    ((buildLevel b.watched op items).run.run (s, calls)).2.2 =
      calls ++ if (soleBare? items).isSome then [] else [.boolean (partsOf op items)] := by
  rw [buildLevel_eq_partsOf]
  cases soleBare? items with
  | some clause => exact (List.append_nil calls).symm
  | none =>
    have hmake := run_make_watched b (.boolean (partsOf op items)) s calls
    exact congrArg (fun r => r.2.2) hmake

/-- Reading a level, for either operator. Any builder gets the clauses in the parts of the closed
form, unless the level is a single clause with nothing written before it: that clause is the level,
and this is just the case in which the builder gets no call for the level. The part of a clause
depends on its own mark and the conjunction before the next clause, and on nothing else of the
level. -/
theorem readLevel_eq_partsOf (op : Operator) :
    (∀ {m : Type → Type} [Monad m] [LawfulMonad m] (b : Builder m α) (primary : Primary m α)
      (field : String) (s : List Char),
      readLevel b op primary field s =
        readItems b primary field s.length s >>= fun (items, rest) =>
          match soleBare? items with
          | some clause => pure (clause, rest)
          | none =>
            ExceptT.lift (b.boolean (partsOf op items)) >>= fun clause => pure (clause, rest)) ∧
    (∀ {σ ε : Type} (b : Builder (ExceptT ε (StateM σ)) α) (items : List (Item α)) (s : σ)
      (calls : List (Call α)),
      ((buildLevel b.watched op items).run.run (s, calls)).2.2 =
        calls ++ if (soleBare? items).isSome then [] else [.boolean (partsOf op items)]) ∧
    ∀ (items others : List (Item α)) (i j : Nat),
      items[i]?.map Item.mark = others[j]?.map Item.mark →
      conjunctionAfter items i = conjunctionAfter others j →
      (clausesOf op items)[i]?.map Prod.snd = (clausesOf op others)[j]?.map Prod.snd := by
  refine ⟨?_, ?_, ?_⟩
  · intro m _ _ b primary field s
    have hbuild : ∀ (items : List (Item α)) (rest : List Char),
        (ExceptT.lift (buildLevel b op items) >>= fun clause => pure (clause, rest) :
          ExceptT Failure m (α × List Char)) =
        match soleBare? items with
        | some clause => pure (clause, rest)
        | none =>
          ExceptT.lift (b.boolean (partsOf op items)) >>= fun clause => pure (clause, rest) := by
      intro items rest
      rw [buildLevel_eq_partsOf]
      cases soleBare? items with
      | some clause => simp
      | none => rfl
    have hlevel : readLevel b op primary field s =
        readItems b primary field s.length s >>= fun (items, rest) =>
          ExceptT.lift (buildLevel b op items) >>= fun clause => pure (clause, rest) := rfl
    simp only [hlevel, hbuild]
  · intro σ ε b items s calls
    exact calls_buildLevel_watched b op items s calls
  · intro items others i j hmark hnext
    rw [map_snd_getElem?_clausesOf, map_snd_getElem?_clausesOf, hmark, hnext]

/-- The part of `b` in `a AND b c` is what it is in `-x y AND b`. -/
theorem readLevel_eq_partsOf_around_and :
    (clausesOf .or [⟨⟨none, none⟩, Expression.term "body" "a"⟩,
        ⟨⟨some .and, none⟩, .term "body" "b"⟩, ⟨⟨none, none⟩, .term "body" "c"⟩])[1]?.map
          Prod.snd =
      (clausesOf .or [⟨⟨none, some .prohibited⟩, Expression.term "body" "x"⟩,
        ⟨⟨none, none⟩, .term "body" "y"⟩, ⟨⟨some .and, none⟩, .term "body" "b"⟩])[2]?.map
          Prod.snd := by
  obtain ⟨-, -, hlocal⟩ := readLevel_eq_partsOf (α := Expression) .or
  exact hlocal _ _ 1 2 rfl rfl

end ProximityQuery
