import Mathlib
import ProximityQuery.Aggregate.Indexed

/-!
# Histories of an aggregate

An aggregate over any sequence of additions and clearings. Its index has the place of every term
among the entries and nothing else, so the entries are those that a search for each term gives. They
are what the additions since the last clearing amount to: an entry for each clause in the order of
its first addition, and for each term the weights of all its additions, summed in their order. The
sums are left to the addition of the weights, about which nothing is supposed.
-/

namespace ProximityQuery

variable {W : Type}

/-- Only a term has a key. -/
theorem Positional.key?_eq_some_iff {clause : Positional} {field text : String} :
    clause.key? = some (field, text) ↔ ∃ boost, clause = .term { field, text, boost } := by
  constructor
  · intro h
    cases clause with
    | term t =>
      obtain ⟨rfl, rfl⟩ := Prod.mk.inj (Option.some.inj h)
      exact ⟨t.boost, rfl⟩
    | near clauses slop inOrder => cases h
    | or clauses => cases h
    | not included excluded => cases h
  · rintro ⟨boost, rfl⟩
    rfl

namespace Aggregate

/-- Two clauses are the same term when both are terms, of one field and one text. -/
theorem sameTerm_iff {clause other : Positional} :
    sameTerm clause other = true ↔ ∃ key, clause.key? = some key ∧ other.key? = some key := by
  cases clause with
  | term t =>
    cases other with
    | term u =>
      simp only [sameTerm, Positional.key?, Bool.and_eq_true, decide_eq_true_eq,
        Option.some.injEq]
      constructor
      · rintro ⟨hfield, htext⟩
        exact ⟨_, rfl, by rw [hfield, htext]⟩
      · rintro ⟨key, rfl, hother⟩
        obtain ⟨hfield, htext⟩ := Prod.mk.inj hother
        exact ⟨hfield.symm, htext.symm⟩
    | near clauses slop inOrder => simp [sameTerm, Positional.key?]
    | or clauses => simp [sameTerm, Positional.key?]
    | not included excluded => simp [sameTerm, Positional.key?]
  | near clauses slop inOrder => simp [sameTerm, Positional.key?]
  | or clauses => simp [sameTerm, Positional.key?]
  | not included excluded => simp [sameTerm, Positional.key?]

/-- Seen from a term, the same term is one with its key. -/
theorem sameTerm_eq_decide {clause : Positional} {key : String × String}
    (h : clause.key? = some key) (other : Positional) :
    sameTerm clause other = decide (other.key? = some key) := by
  rw [Bool.eq_iff_iff, sameTerm_iff, h, decide_eq_true_eq]
  constructor
  · rintro ⟨k, hk, hother⟩
    exact hother.trans hk.symm
  · exact fun hother => ⟨key, rfl, hother⟩

/-- It does not matter which of the two clauses is asked about the other. -/
theorem sameTerm_comm (clause other : Positional) :
    sameTerm clause other = sameTerm other clause := by
  rw [Bool.eq_iff_iff, sameTerm_iff, sameTerm_iff]
  simp only [and_comm]

/-- Clauses of one term are the same term as the same clauses. -/
theorem sameTerm_congr {clause other : Positional} (h : sameTerm clause other = true)
    (third : Positional) : sameTerm clause third = sameTerm other third := by
  obtain ⟨key, hclause, hother⟩ := sameTerm_iff.mp h
  rw [sameTerm_eq_decide hclause, sameTerm_eq_decide hother]

section

variable [Add W]

/-- What some additions amount to: an entry for each clause in the order of its first addition, with
the weights of the same term, those added later to the right of those added earlier. -/
def collected : List (Positional × W) → List (Positional × W)
  | [] => []
  | (clause, weight) :: later =>
    let more := (later.filter fun e => sameTerm clause e.1).map Prod.snd
    (clause, more.foldl (· + ·) weight) ::
      (collected later).filter fun e => !sameTerm clause e.1

/-- Adding an entry adds nothing to the entries that are of other terms. -/
theorem filter_addEntry_of_same {first clause : Positional} (h : sameTerm first clause = true)
    (weight : W) (entries : List (Positional × W)) :
    ((addEntry clause weight entries).filter fun e => !sameTerm first e.1) =
      entries.filter fun e => !sameTerm first e.1 := by
  induction entries with
  | nil => simp [addEntry, h]
  | cons e rest ih =>
    rw [addEntry]
    split
    next hsame =>
      have hdrop : sameTerm first e.1 = true := by
        rw [sameTerm_congr h, sameTerm_comm, hsame]
      simp [hdrop]
    next => rw [List.filter_cons, List.filter_cons, ih]

/-- An entry of another term is added to the entries that are of other terms. -/
theorem filter_addEntry_of_not_same {first clause : Positional}
    (h : sameTerm first clause = false) (weight : W) (entries : List (Positional × W)) :
    ((addEntry clause weight entries).filter fun e => !sameTerm first e.1) =
      addEntry clause weight (entries.filter fun e => !sameTerm first e.1) := by
  induction entries with
  | nil => simp [addEntry, h]
  | cons e rest ih =>
    rw [addEntry]
    split
    next hsame =>
      -- the entry that takes the weight is of the term that is added, and stays
      have hkeep : sameTerm first e.1 = false := by
        rw [sameTerm_comm, sameTerm_congr hsame, sameTerm_comm, h]
      simp [hkeep, addEntry, hsame]
    next hsame =>
      rw [List.filter_cons, List.filter_cons, ih]
      split
      · simp [addEntry, hsame]
      · rfl

/-- One more addition adds one more entry. -/
theorem collected_concat (adds : List (Positional × W)) (clause : Positional) (weight : W) :
    collected (adds ++ [(clause, weight)]) = addEntry clause weight (collected adds) := by
  induction adds with
  | nil => rfl
  | cons first later ih =>
    rw [List.cons_append, collected, collected, ih, addEntry]
    cases h : sameTerm first.1 clause with
    | true =>
      rw [filter_addEntry_of_same h]
      simp [h]
    | false =>
      rw [filter_addEntry_of_not_same h]
      simp [h]

/-- A term is collected with the weights of all its additions, summed from left to right. -/
theorem sum_of_mem_collected {adds : List (Positional × W)} {clause : Positional} {sum : W}
    {key : String × String} (h : (clause, sum) ∈ collected adds) (hkey : clause.key? = some key) :
    ∃ first more, (adds.filter fun e => e.1.key? = some key).map Prod.snd = first :: more ∧
      sum = more.foldl (· + ·) first := by
  induction adds with
  | nil => cases h
  | cons first later ih =>
    rw [collected] at h
    rcases List.mem_cons.mp h with heq | hmem
    · obtain ⟨rfl, rfl⟩ := Prod.mk.inj heq
      refine ⟨first.2, (later.filter fun e => sameTerm first.1 e.1).map Prod.snd, ?_, rfl⟩
      simp only [sameTerm_eq_decide hkey]
      simp [hkey]
    · obtain ⟨hlater, hother⟩ := List.mem_filter.mp hmem
      have hfirst : first.1.key? ≠ some key := by
        intro hfirst
        rw [sameTerm_eq_decide hfirst, hkey] at hother
        simp at hother
      obtain ⟨weight, more, hsplit, hsum⟩ := ih hlater
      exact ⟨weight, more, by rw [List.filter_cons_of_neg (by simpa using hfirst), hsplit], hsum⟩

/-- Every clause that is no term is collected each time it is added, with its own weight. -/
theorem filter_collected (adds : List (Positional × W)) :
    ((collected adds).filter fun e => e.1.key?.isNone) = adds.filter fun e => e.1.key?.isNone := by
  induction adds with
  | nil => rfl
  | cons first later ih =>
    have hothers : (((collected later).filter fun e => !sameTerm first.1 e.1).filter
        fun e => e.1.key?.isNone) = later.filter fun e => e.1.key?.isNone := by
      rw [List.filter_filter, ← ih]
      refine List.filter_congr fun e _ => ?_
      cases hkey : e.1.key? with
      | none =>
        have hsame : sameTerm first.1 e.1 = false := by
          rw [Bool.eq_false_iff, ne_eq, sameTerm_iff]
          rintro ⟨key, -, hsome⟩
          rw [hkey] at hsome
          cases hsome
        simp [hsame]
      | some key => rfl
    rw [collected, List.filter_cons, List.filter_cons, hothers]
    split
    next hnone =>
      have hmore : (later.filter fun e => sameTerm first.1 e.1) = [] := by
        rw [List.filter_eq_nil_iff]
        intro e _ hsame
        obtain ⟨key, hsome, -⟩ := sameTerm_iff.mp hsame
        simp [hsome] at hnone
      rw [hmore]
      rfl
    next => rfl

/-- A clause that is the same term as no entry gets an entry at the end. -/
theorem addEntry_of_new {clause : Positional} {entries : List (Positional × W)}
    (h : ∀ e ∈ entries, sameTerm e.1 clause = false) (weight : W) :
    addEntry clause weight entries = entries ++ [(clause, weight)] := by
  induction entries with
  | nil => rfl
  | cons e rest ih =>
    obtain ⟨he, hrest⟩ := List.forall_mem_cons.mp h
    simp [addEntry, he, ih hrest]

/-- The first entry of the same term takes the weight. -/
theorem addEntry_of_place {clause : Positional} {entries : List (Positional × W)} {place : Nat}
    {e : Positional × W} (he : entries[place]? = some e) (hsame : sameTerm e.1 clause = true)
    (hfirst : ∀ i < place, ∀ e, entries[i]? = some e → sameTerm e.1 clause = false) (weight : W) :
    addEntry clause weight entries =
      entries.modify place fun (clause, sum) => (clause, sum + weight) := by
  induction entries generalizing place with
  | nil => cases he
  | cons head rest ih =>
    cases place with
    | zero =>
      obtain rfl := Option.some.inj he
      simp [addEntry, hsame]
    | succ place =>
      have hhead := hfirst 0 (Nat.zero_lt_succ place) head rfl
      have hrest := ih he fun i hi => hfirst (i + 1) (Nat.succ_lt_succ hi)
      simp [addEntry, hhead, hrest]

end

/-- Without an entry, and from two entries on, the aggregate is an alternation of them all. -/
theorem build_of_length_ne_one {a : Aggregate W} (h : a.entries.length ≠ 1)
    (narrow : W → Float32) :
    a.build narrow = .or (a.entries.map fun e => e.1.setBoost (narrow e.2)) := by
  rcases a.build_cases narrow with ⟨e, hsole, -⟩ | ⟨-, hbuild⟩
  · exact absurd (congrArg List.length hsole) h
  · exact hbuild

/-- What can be done to an aggregate. -/
inductive Step (W : Type)
  | addTerm (text : String) (weight : W)
  | addPositional (clause : Positional) (weight : W)
  | addQuery (query : Query) (weight : W)
  | clear

/-- Whether a step drops every entry. -/
def Step.isClear : Step W → Bool
  | .clear => true
  | .addTerm _ _ | .addPositional _ _ | .addQuery _ _ => false

/-- The clause that a step adds, with its weight. -/
def Step.addition? (factory : LeafFactory) (field : String) : Step W → Option (Positional × W)
  | .addTerm text weight => some (factory field text, weight)
  | .addPositional clause weight => some (clause, weight)
  | .addQuery (.positional clause) weight => some (clause, weight)
  | .addQuery _ _ | .clear => none

/-- What some steps have added since the last clearing, without the alternation of nothing. -/
def contributions (factory : LeafFactory) (field : String) (steps : List (Step W)) :
    List (Positional × W) :=
  let current := (steps.reverse.takeWhile fun s => !s.isClear).reverse
  (current.filterMap (Step.addition? factory field)).filter fun e => !e.1.isEmpty

section

variable {factory : LeafFactory} {field : String} {steps : List (Step W)}

/-- What was added before a clear does not count. -/
theorem contributions_clear : contributions factory field (steps ++ [.clear]) = [] := by
  simp [contributions, Step.isClear]

/-- A step that is no clearing contributes what it adds, unless that is nothing. -/
theorem contributions_concat {s : Step W} (h : s.isClear = false) :
    contributions factory field (steps ++ [s]) = contributions factory field steps ++
      (s.addition? factory field).toList.filter fun e => !e.1.isEmpty := by
  simp [contributions, h, List.filterMap_append, List.filterMap_cons]
  cases s.addition? factory field with
  | none => simp
  | some e => simp [List.filter_cons]

end

/-- The aggregate after a step. A query that is refused leaves it as it is. -/
def next [Add W] (factory : LeafFactory) (a : Aggregate W) : Step W → Aggregate W
  | .addTerm text weight => a.addTerm factory text weight
  | .addPositional clause weight => a.add clause weight
  | .addQuery query weight => (a.addQuery query weight).toOption.getD a
  | .clear => a.clear

end Aggregate

namespace IndexedAggregate

open Aggregate

/-- Whether the index has the place of every term among the entries, and nothing else. -/
def InStep (a : IndexedAggregate W) : Prop :=
  ∀ key place, a.places.lookup key = some place ↔
    ∃ e, a.entries[place]? = some e ∧ e.1.key? = some key

/-- Of the places in a longer list of entries, only the last can be new. -/
theorem exists_key_concat {entries : List (Positional × W)} {e : Positional × W} {place : Nat}
    {key : String × String} :
    (∃ e', (entries ++ [e])[place]? = some e' ∧ e'.1.key? = some key) ↔
      (∃ e', entries[place]? = some e' ∧ e'.1.key? = some key) ∨
        place = entries.length ∧ e.1.key? = some key := by
  rcases Nat.lt_trichotomy place entries.length with hlt | rfl | hgt
  · rw [List.getElem?_append_left hlt]
    simp [Nat.ne_of_lt hlt]
  · simp
  · have hnone : (entries ++ [e])[place]? = none := List.getElem?_eq_none (by simpa using hgt)
    have hnone' : entries[place]? = none := List.getElem?_eq_none (Nat.le_of_lt hgt)
    simp [hnone, hnone', Nat.ne_of_gt hgt]

/-- A change of weights leaves every clause at its place. -/
theorem exists_key_modify (entries : List (Positional × W)) (i place : Nat) (change : W → W)
    (key : String × String) :
    (∃ e, (entries.modify i fun (clause, sum) => (clause, change sum))[place]? = some e ∧
      e.1.key? = some key) ↔ ∃ e, entries[place]? = some e ∧ e.1.key? = some key := by
  rw [List.getElem?_modify]
  cases entries[place]? with
  | none => simp
  | some e =>
    by_cases hi : i = place
    · simp [hi]
    · simp [hi]

/-- In an index that is in step, two entries are not of the same term. -/
theorem InStep.unique {a : IndexedAggregate W} (h : a.InStep) {i j : Nat} {e e' : Positional × W}
    (he : a.entries[i]? = some e) (he' : a.entries[j]? = some e')
    (hsame : sameTerm e.1 e'.1 = true) : i = j := by
  obtain ⟨key, hkey, hkey'⟩ := sameTerm_iff.mp hsame
  have hi := (h key i).mpr ⟨e, he, hkey⟩
  have hj := (h key j).mpr ⟨e', he', hkey'⟩
  exact Option.some.inj (hi.symm.trans hj)

/-- An index that is in step has exactly the terms, each at its place. -/
theorem InStep.lookup_eq_some_iff {a : IndexedAggregate W} (h : a.InStep) (field text : String)
    (place : Nat) :
    a.places.lookup (field, text) = some place ↔
      ∃ boost sum, a.entries[place]? = some (.term { field, text, boost }, sum) := by
  rw [h (field, text) place]
  constructor
  · rintro ⟨⟨clause, sum⟩, hat, hkey⟩
    obtain ⟨boost, rfl⟩ := Positional.key?_eq_some_iff.mp hkey
    exact ⟨boost, sum, hat⟩
  · rintro ⟨boost, sum, hat⟩
    exact ⟨_, hat, rfl⟩

section

variable [Add W] {a : IndexedAggregate W}

/-- An addition keeps the index in step with the list, whether it finds its entry there or makes a
new one. -/
theorem inStep_add (h : a.InStep) (clause : Positional) (weight : W) :
    (a.add clause weight).InStep := by
  rw [add]
  split
  · exact h
  cases hkey : clause.key? with
  | none =>
    intro key place
    simp only [exists_key_concat, hkey, h key place]
    simp
  | some k =>
    dsimp only
    cases hplace : a.places.lookup k with
    | some i =>
      intro key place
      exact (h key place).trans (exists_key_modify a.entries i place (· + weight) key).symm
    | none =>
      intro key place
      simp only [exists_key_concat, hkey, List.lookup_cons]
      have hnew : ∀ place : Nat, ¬ ∃ e, a.entries[place]? = some e ∧
          e.1.key? = some k := by
        intro place hold
        rw [← h k place, hplace] at hold
        cases hold
      split
      next heq =>
        obtain rfl : key = k := beq_iff_eq.mp heq
        have hold := hnew place
        simp only [hold, false_or, and_true, Option.some.injEq]
        exact eq_comm
      next hne =>
        have hother : some k ≠ some key := fun heq => beq_eq_false_iff_ne.mp hne
          (Option.some.inj heq).symm
        simp only [h key place, hother, and_false, or_false]

/-- As long as the index is in step, it finds the entry that a search finds. -/
theorem toAggregate_add (h : a.InStep) (clause : Positional) (weight : W) :
    (a.add clause weight).toAggregate = a.toAggregate.add clause weight := by
  rw [add, Aggregate.add]
  split
  · rfl
  cases hkey : clause.key? with
  | none =>
    have hnew : ∀ e ∈ a.entries, sameTerm e.1 clause = false := by
      intro e _
      rw [Bool.eq_false_iff, ne_eq, sameTerm_iff, hkey]
      rintro ⟨key, -, hsome⟩
      cases hsome
    rw [addEntry_of_new hnew]
  | some key =>
    dsimp only
    have hsame : ∀ e : Positional × W, sameTerm e.1 clause = decide (e.1.key? = some key) :=
      fun e => by rw [sameTerm_comm, sameTerm_eq_decide hkey]
    cases hplace : a.places.lookup key with
    | none =>
      have hnew : ∀ e ∈ a.entries, sameTerm e.1 clause = false := by
        intro e he
        rw [hsame, decide_eq_false_iff_not]
        intro hsome
        obtain ⟨place, hat⟩ := List.mem_iff_getElem?.mp he
        have hfound := (h key place).mpr ⟨e, hat, hsome⟩
        rw [hplace] at hfound
        cases hfound
      rw [addEntry_of_new hnew]
    | some place =>
      obtain ⟨e, hat, hsome⟩ := (h key place).mp hplace
      have hfirst : ∀ i < place, ∀ e, a.entries[i]? = some e → sameTerm e.1 clause = false := by
        intro i hi e he
        rw [hsame, decide_eq_false_iff_not]
        intro hsome
        have hfound := (h key i).mpr ⟨e, he, hsome⟩
        rw [hplace] at hfound
        exact Nat.ne_of_gt hi (Option.some.inj hfound)
      rw [addEntry_of_place hat (by rw [hsame, hsome]; simp) hfirst]

/-- What a step answers, which is an error when it is refused, and the aggregate after it. -/
def step (factory : LeafFactory) (a : IndexedAggregate W) :
    Step W → Option QueryError × IndexedAggregate W
  | .addTerm text weight => (none, a.addTerm factory text weight)
  | .addPositional clause weight => (none, a.add clause weight)
  | .addQuery query weight =>
    match a.addQuery query weight with
    | .ok a => (none, a)
    | .error e => (some e, a)
  | .clear => (none, a.clear)

/-- The aggregate after some steps. -/
def after (factory : LeafFactory) (a : IndexedAggregate W) (steps : List (Step W)) :
    IndexedAggregate W :=
  steps.foldl (fun a s => (a.step factory s).2) a

/-- A step is a clearing, an addition or refused; what is refused changes nothing. -/
theorem step_cases (factory : LeafFactory) (a : IndexedAggregate W) (s : Step W) :
    (s = .clear ∧ a.step factory s = (none, a.clear)) ∨
    (s.isClear = false ∧ ∃ clause weight, s.addition? factory a.field = some (clause, weight) ∧
      a.step factory s = (none, a.add clause weight) ∧
      a.toAggregate.next factory s = a.toAggregate.add clause weight) ∨
    (s.isClear = false ∧ ∃ query weight, s = .addQuery query weight ∧
      s.addition? factory a.field = none ∧
      a.step factory s = (some (.notPositional query.kind), a) ∧
      a.toAggregate.next factory s = a.toAggregate) := by
  cases s with
  | addTerm text weight => exact .inr (.inl ⟨rfl, _, _, rfl, rfl, rfl⟩)
  | addPositional clause weight => exact .inr (.inl ⟨rfl, _, _, rfl, rfl, rfl⟩)
  | addQuery query weight =>
    cases query with
    | positional clause => exact .inr (.inl ⟨rfl, _, _, rfl, rfl, rfl⟩)
    | term t => exact .inr (.inr ⟨rfl, _, _, rfl, rfl, rfl, rfl⟩)
    | boolean children => exact .inr (.inr ⟨rfl, _, _, rfl, rfl, rfl, rfl⟩)
    | multiTerm field which boost => exact .inr (.inr ⟨rfl, _, _, rfl, rfl, rfl, rfl⟩)
    | boosted query boost => exact .inr (.inr ⟨rfl, _, _, rfl, rfl, rfl, rfl⟩)
    | phrase id => exact .inr (.inr ⟨rfl, _, _, rfl, rfl, rfl, rfl⟩)
  | clear => exact .inl ⟨rfl, rfl⟩

/-- What is known of an aggregate after some steps. -/
structure Follows (factory : LeafFactory) (field : String) (steps : List (Step W))
    (a : IndexedAggregate W) : Prop where
  sameField : a.field = field
  inStep : a.InStep
  /-- It is the aggregate without an index. -/
  plain : a.toAggregate = steps.foldl (Aggregate.next factory) { field }
  entries : a.entries = collected (contributions factory field steps)

variable {factory : LeafFactory} {field : String} {steps : List (Step W)}

/-- An addition does not change the field of an aggregate. -/
theorem field_add (a : IndexedAggregate W) (clause : Positional) (weight : W) :
    (a.add clause weight).field = a.field := by
  rw [add]
  split
  · rfl
  split
  · rfl
  split <;> rfl

/-- A new aggregate follows from no steps at all. -/
theorem follows_nil (factory : LeafFactory) (field : String) :
    Follows (W := W) factory field [] { field } where
  sameField := rfl
  inStep key place := by simp
  plain := rfl
  entries := rfl

/-- One more step keeps the index, the entries and the sums as they are to be. -/
theorem Follows.concat (h : Follows factory field steps a) (s : Step W) :
    Follows factory field (steps ++ [s]) (a.step factory s).2 := by
  have hfold : (steps ++ [s]).foldl (Aggregate.next factory) { field } =
      a.toAggregate.next factory s := by
    rw [List.foldl_append, ← h.plain]
    rfl
  rcases step_cases factory a s with ⟨rfl, hstep⟩ |
    ⟨hclear, clause, weight, hadd, hstep, hnext⟩ |
    ⟨hclear, query, weight, -, hadd, hstep, hnext⟩
  · rw [hstep]
    refine ⟨h.sameField, fun key place => by simp [clear], by rw [hfold]; rfl, ?_⟩
    rw [contributions_clear]
    rfl
  · have hplain := toAggregate_add h.inStep clause weight
    have hentries := congrArg Aggregate.entries hplain
    rw [hstep]
    refine ⟨(field_add a clause weight).trans h.sameField, inStep_add h.inStep clause weight,
      by rw [hfold, hnext, hplain], ?_⟩
    rw [h.sameField] at hadd
    rw [contributions_concat hclear, hadd, hentries, Aggregate.add]
    cases hempty : clause.isEmpty with
    | true => simpa [hempty] using h.entries
    | false => simp [hempty, collected_concat, h.entries]
  · rw [h.sameField] at hadd
    rw [hstep]
    refine ⟨h.sameField, h.inStep, by rw [hfold, hnext], ?_⟩
    rw [contributions_concat hclear, hadd]
    simpa using h.entries

/-- An aggregate follows from the steps that led to it, by induction over the last of them. -/
theorem follows_after (factory : LeafFactory) (field : String) (steps : List (Step W)) :
    Follows factory field steps (after factory { field } steps) := by
  induction steps using List.reverseRecOn with
  | nil => exact follows_nil factory field
  | append_singleton steps s ih =>
    rw [after, List.foldl_append]
    exact ih.concat s

/-- Adding the alternation of nothing changes nothing, whichever step adds it. -/
theorem step_of_empty {s : Step W} {weight : W}
    (h : s.addition? factory a.field = some (.empty, weight)) : a.step factory s = (none, a) := by
  rcases step_cases factory a s with ⟨rfl, -⟩ | ⟨-, clause, weight', hadd, hstep, -⟩ |
    ⟨-, query, weight', -, hadd, -⟩
  · cases h
  · rw [h] at hadd
    obtain ⟨rfl, rfl⟩ := Prod.mk.inj (Option.some.inj hadd)
    exact hstep
  · rw [h] at hadd
    cases hadd

/-- A query that is no positional clause is refused and changes nothing. -/
theorem step_of_not_positional {query : Query} (h : ∀ clause, query ≠ .positional clause)
    (weight : W) :
    a.step factory (.addQuery query weight) = (some (.notPositional query.kind), a) := by
  rcases step_cases factory a (.addQuery query weight) with ⟨heq, -⟩ |
    ⟨-, clause, weight', hadd, -⟩ | ⟨-, query', weight', heq, -, hstep, -⟩
  · cases heq
  · cases query with
    | positional clause => exact absurd rfl (h clause)
    | term t => cases hadd
    | boolean children => cases hadd
    | multiTerm field which boost => cases hadd
    | boosted query boost => cases hadd
    | phrase id => cases hadd
  · obtain ⟨rfl, rfl⟩ := Step.addQuery.inj heq
    exact hstep

/-- An aggregate after any steps, whatever the factory makes of the words and however weights are
added. The index has the place of each term and nothing else, two entries are not of the same term,
and without the index the entries would be the same. They are what was contributed since the last
clearing, in the order of first addition: a term with the sum, from left to right, of the weights
contributed to it, and any other clause each time it was contributed. Adding the alternation of
nothing, or a query that is refused, leaves the aggregate as it is. What is built is the sole entry,
or an alternation of all of them in their order, with each sum narrowed once. -/
theorem entries_after_steps (factory : LeafFactory) (field : String) (steps : List (Step W))
    (narrow : W → Float32) :
    let a := after factory { field } steps
    let added := contributions factory field steps
    (∀ f text place, a.places.lookup (f, text) = some place ↔
      ∃ boost sum, a.entries[place]? = some (.term { field := f, text, boost }, sum)) ∧
    (∀ (i j : Nat) (e e' : Positional × W), a.entries[i]? = some e → a.entries[j]? = some e' →
      sameTerm e.1 e'.1 = true → i = j) ∧
    a.toAggregate = steps.foldl (Aggregate.next factory) { field } ∧
    a.entries = collected added ∧
    (∀ f text boost sum, (.term { field := f, text, boost }, sum) ∈ a.entries →
      ∃ first more, (added.filter fun e => e.1.key? = some (f, text)).map Prod.snd = first :: more ∧
        sum = more.foldl (· + ·) first) ∧
    ((a.entries.filter fun e => e.1.key?.isNone) = added.filter fun e => e.1.key?.isNone) ∧
    (∀ s weight, s.addition? factory field = some (.empty, weight) →
      a.step factory s = (none, a)) ∧
    (∀ query weight, (∀ clause, query ≠ .positional clause) →
      a.step factory (.addQuery query weight) = (some (.notPositional query.kind), a)) ∧
    (∀ clause sum, a.entries = [(clause, sum)] → a.build narrow = clause.setBoost (narrow sum)) ∧
    (a.entries.length ≠ 1 →
      a.build narrow = .or (a.entries.map fun e => e.1.setBoost (narrow e.2))) := by
  intro a added
  have h : Follows factory field steps a := follows_after factory field steps
  refine ⟨h.inStep.lookup_eq_some_iff, fun _ _ _ _ => h.inStep.unique, h.plain, h.entries, ?_, ?_,
    ?_, fun query weight hkind => step_of_not_positional hkind weight, ?_,
    fun hcount => build_of_length_ne_one hcount narrow⟩
  · intro f text boost sum hmem
    rw [h.entries] at hmem
    exact sum_of_mem_collected hmem rfl
  · rw [h.entries]
    exact filter_collected added
  · intro s weight hadd
    rw [← h.sameField] at hadd
    exact step_of_empty hadd
  · intro clause sum hsole
    rw [build, hsole]
    rfl

end

end IndexedAggregate

end ProximityQuery
