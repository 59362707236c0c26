import ProximityQuery.Proofs.AggregateHistory

/-!
# The order of additions

When weights are added exactly, that is, when their addition is associative and commutative, the
order in which clauses are added to an aggregate shows in the order of its entries alone. The term
that an entry keeps may come from another addition, with another boost, but what is built does not
look at that boost. So the entries are compared with the boosts of their terms put aside, by
induction over the rearrangement of the additions.
-/

namespace ProximityQuery

variable {W : Type}

namespace Positional

/-- Of two boosts given one after the other, the later stays. -/
theorem setBoost_setBoost (boost earlier : Float32) (clause : Positional) :
    (clause.setBoost earlier).setBoost boost = clause.setBoost boost := by
  cases clause <;> rfl

/-- A boost does not change which term a clause is. -/
theorem key?_setBoost (boost : Float32) (clause : Positional) :
    (clause.setBoost boost).key? = clause.key? := by
  cases clause <;> rfl

end Positional

namespace Aggregate

/-- With the same boost, clauses of one term are the same clause. -/
theorem setBoost_eq_of_sameTerm {clause other : Positional} (h : sameTerm clause other = true)
    (boost : Float32) : clause.setBoost boost = other.setBoost boost := by
  obtain ⟨⟨field, text⟩, hclause, hother⟩ := sameTerm_iff.mp h
  obtain ⟨_, rfl⟩ := Positional.key?_eq_some_iff.mp hclause
  obtain ⟨_, rfl⟩ := Positional.key?_eq_some_iff.mp hother
  rfl

/-- So a clause is the same term whatever its boost. -/
theorem sameTerm_setBoost (clause : Positional) (boost : Float32) (other : Positional) :
    sameTerm clause (other.setBoost boost) = sameTerm clause other := by
  rw [Bool.eq_iff_iff, sameTerm_iff, sameTerm_iff, Positional.key?_setBoost]

/-- An entry with the boost of its term put aside. -/
def unboosted (e : Positional × W) : Positional × W :=
  (e.1.setBoost 1, e.2)

/-- Putting boosts aside does not change which entries are of other terms. -/
theorem map_unboosted_filter (first : Positional) (entries : List (Positional × W)) :
    (entries.filter fun e => !sameTerm first e.1).map unboosted =
      (entries.map unboosted).filter fun e => !sameTerm first e.1 := by
  rw [List.filter_map]
  refine congrArg _ (List.filter_congr fun e _ => ?_)
  rw [Function.comp_apply, unboosted, sameTerm_setBoost]

/-- Two additions of the same term make one entry. -/
theorem collected_of_same [Add W] {first second : Positional × W}
    (h : sameTerm first.1 second.1 = true) (later : List (Positional × W)) :
    collected (first :: second :: later) =
      (first.1, ((later.filter fun e => sameTerm first.1 e.1).map Prod.snd).foldl (· + ·)
        (first.2 + second.2)) :: (collected later).filter fun e => !sameTerm first.1 e.1 := by
  have hrest : ((collected later).filter fun e => !sameTerm second.1 e.1) =
      (collected later).filter fun e => !sameTerm first.1 e.1 :=
    List.filter_congr fun e _ => by rw [sameTerm_congr h]
  rw [collected, collected, hrest]
  simp [h]

/-- Two other additions make an entry each. -/
theorem collected_of_not_same [Add W] {first second : Positional × W}
    (h : sameTerm first.1 second.1 = false) (later : List (Positional × W)) :
    collected (first :: second :: later) =
      (first.1, ((later.filter fun e => sameTerm first.1 e.1).map Prod.snd).foldl (· + ·)
        first.2) ::
      (second.1, ((later.filter fun e => sameTerm second.1 e.1).map Prod.snd).foldl (· + ·)
        second.2) ::
      ((collected later).filter fun e => !sameTerm first.1 e.1 && !sameTerm second.1 e.1) := by
  rw [collected, collected]
  simp [h, List.filter_filter]

section

variable [AddCommSemigroup W]

/-- Weights sum to the same in any order. -/
theorem sum_eq_of_perm {weights weights' : List W} (h : weights.Perm weights') (first : W) :
    weights.foldl (· + ·) first = weights'.foldl (· + ·) first :=
  h.foldl_eq' (fun w _ w' _ sum => add_right_comm sum w w') first

/-- Two additions can change places. -/
theorem collected_swap (first second : Positional × W) (later : List (Positional × W)) :
    ((collected (second :: first :: later)).map unboosted).Perm
      ((collected (first :: second :: later)).map unboosted) := by
  cases h : sameTerm first.1 second.1 with
  | true =>
    have h' : sameTerm second.1 first.1 = true := by rw [sameTerm_comm, h]
    have hsame : ∀ other, sameTerm second.1 other = sameTerm first.1 other :=
      fun other => (sameTerm_congr h other).symm
    -- the entry keeps the clause that is added first, which differs from the other in its boost
    have hclause : second.1.setBoost 1 = first.1.setBoost 1 := setBoost_eq_of_sameTerm h' 1
    rw [collected_of_same h, collected_of_same h', List.map_cons, List.map_cons, unboosted,
      unboosted, hclause, add_comm second.2]
    simp only [hsame]
    exact .refl _
  | false =>
    have h' : sameTerm second.1 first.1 = false := by rw [sameTerm_comm, h]
    have hrest : ((collected later).filter
        fun e => !sameTerm second.1 e.1 && !sameTerm first.1 e.1) =
          (collected later).filter fun e => !sameTerm first.1 e.1 && !sameTerm second.1 e.1 :=
      List.filter_congr fun e _ => Bool.and_comm _ _
    rw [collected_of_not_same h, collected_of_not_same h', hrest]
    exact .swap _ _ _

/-- What additions amount to in another order, boosts being put aside. -/
theorem collected_perm {adds adds' : List (Positional × W)} (h : adds.Perm adds') :
    ((collected adds).map unboosted).Perm ((collected adds').map unboosted) := by
  induction h with
  | nil => exact .nil
  | cons first hlater ih =>
    have hsum := sum_eq_of_perm ((hlater.filter fun e => sameTerm first.1 e.1).map Prod.snd) first.2
    rw [collected, collected, hsum, List.map_cons, List.map_cons, map_unboosted_filter,
      map_unboosted_filter]
    exact (ih.filter _).cons _
  | swap first second later => exact collected_swap first second later
  | trans _ _ ih ih' => exact ih.trans ih'

end

/-- What some steps have added, when none of them drops it again. -/
theorem contributions_of_no_clear {steps : List (Step W)} (h : ∀ s ∈ steps, s.isClear = false)
    (factory : LeafFactory) (field : String) :
    contributions factory field steps =
      (steps.filterMap (Step.addition? factory field)).filter fun e => !e.1.isEmpty := by
  have hcurrent : (steps.reverse.takeWhile fun s => !s.isClear) = steps.reverse := by
    rw [List.takeWhile_eq_self_iff]
    intro s hs
    rw [h s (List.mem_reverse.mp hs)]
    rfl
  rw [contributions, hcurrent, List.reverse_reverse]

/-- The entries with their weights as boosts, as `build` has them. -/
def alternatives (narrow : W → Float32) (a : Aggregate W) : List Positional :=
  a.entries.map fun e => e.1.setBoost (narrow e.2)

/-- The alternatives are the entries with their weights as boosts, whatever boosts they
came with. -/
theorem alternatives_eq (narrow : W → Float32) (a : Aggregate W) :
    a.alternatives narrow =
      (a.entries.map unboosted).map fun e => e.1.setBoost (narrow e.2) := by
  rw [alternatives, List.map_map]
  exact List.map_congr_left fun e _ => (Positional.setBoost_setBoost _ _ _).symm

/-- Whether some weight is that of a term among the entries. -/
def HasWeight (a : Aggregate W) (field text : String) (weight : W) : Prop :=
  ∃ boost, (.term { field, text, boost }, weight) ∈ a.entries

/-- A term has a weight just when it is there with that weight, its own boost left aside. -/
theorem hasWeight_iff {a : Aggregate W} {field text : String} {weight : W} :
    a.HasWeight field text weight ↔
      (.term { field, text, boost := 1 }, weight) ∈ a.entries.map unboosted := by
  rw [HasWeight, List.mem_map]
  constructor
  · rintro ⟨boost, hmem⟩
    exact ⟨_, hmem, rfl⟩
  · rintro ⟨⟨clause, sum⟩, hmem, heq⟩
    obtain ⟨hclause, rfl⟩ := Prod.mk.inj heq
    have hkey : clause.key? = some (field, text) := by
      rw [← Positional.key?_setBoost 1 clause, hclause]
      rfl
    obtain ⟨boost, rfl⟩ := Positional.key?_eq_some_iff.mp hkey
    exact ⟨boost, hmem⟩

/-- A sole entry is built as the clause it is among the alternatives. -/
theorem build_of_count_eq_one_iff {narrow : W → Float32} {a : Aggregate W} {clause : Positional} :
    a.count = 1 ∧ a.build narrow = clause ↔ a.alternatives narrow = [clause] := by
  rw [count, alternatives]
  rcases a.build_cases narrow with ⟨e, hsole, hbuild⟩ | ⟨hlength, -⟩
  · rw [hbuild, hsole]
    simp
  · constructor
    · exact fun h => absurd h.1 hlength
    · intro h
      have hone := congrArg List.length h
      rw [List.length_map] at hone
      exact absurd hone hlength

end Aggregate

namespace IndexedAggregate

open Aggregate

/-- Additions and refused queries in two orders, whatever the factory makes of the words, when the
addition of weights is that of exact sums. The two aggregates have as many entries, and the same
weight for every term. What their entries become when they are built is the same up to the order. A
clause that is built by itself from one is built by itself from the other, and otherwise both are
built as the alternation of all their entries. -/
theorem after_perm [AddCommSemigroup W] (factory : LeafFactory) (field : String)
    (narrow : W → Float32) {steps steps' : List (Step W)} (hperm : steps.Perm steps')
    (hclear : ∀ s ∈ steps, s.isClear = false) :
    let a := after factory { field } steps
    let b := after factory { field } steps'
    a.count = b.count ∧
    (∀ f text weight, a.HasWeight f text weight ↔ b.HasWeight f text weight) ∧
    (a.alternatives narrow).Perm (b.alternatives narrow) ∧
    (∀ clause, a.count = 1 ∧ a.build narrow = clause ↔ b.count = 1 ∧ b.build narrow = clause) ∧
    (a.count ≠ 1 → a.build narrow = .or (a.alternatives narrow) ∧
      b.build narrow = .or (b.alternatives narrow)) := by
  intro a b
  have hclear' : ∀ s ∈ steps', s.isClear = false := fun s hs => hclear s (hperm.mem_iff.mpr hs)
  have hadded : (contributions factory field steps).Perm (contributions factory field steps') := by
    rw [contributions_of_no_clear hclear, contributions_of_no_clear hclear']
    exact (hperm.filterMap _).filter _
  have ha : a.entries = collected (contributions factory field steps) :=
    (follows_after factory field steps).entries
  have hb : b.entries = collected (contributions factory field steps') :=
    (follows_after factory field steps').entries
  have hentries : (a.entries.map unboosted).Perm (b.entries.map unboosted) := by
    rw [ha, hb]
    exact collected_perm hadded
  have hcount : a.count = b.count := by
    have hlength := hentries.length_eq
    rwa [List.length_map, List.length_map] at hlength
  have halternatives : (a.alternatives narrow).Perm (b.alternatives narrow) := by
    rw [alternatives_eq, alternatives_eq]
    exact hentries.map _
  refine ⟨hcount, fun f text weight => ?_, halternatives, fun clause => ?_, fun hmany => ?_⟩
  · rw [hasWeight_iff, hasWeight_iff, hentries.mem_iff]
  · rw [build_of_count_eq_one_iff, build_of_count_eq_one_iff]
    constructor
    · intro hsole
      rw [hsole] at halternatives
      exact (List.singleton_perm.mp halternatives).symm
    · intro hsole
      rw [hsole] at halternatives
      exact List.perm_singleton.mp halternatives
  · have hmany' : b.count ≠ 1 := by rwa [← hcount]
    exact ⟨build_of_length_ne_one hmany narrow, build_of_length_ne_one hmany' narrow⟩

/-- A word, a term of the same text with a boost of its own, an alternation that adds nothing, a
refused query and an alternation, added in this order and in the opposite one. -/
theorem after_perm_of_reversed :
    let steps : List (Step Nat) :=
      [.addTerm "john" 2, .addPositional (.term { field := "body", text := "john", boost := 3 }) 5,
        .addQuery (.positional .empty) 1, .addQuery (.phrase 0) 7,
        .addPositional (.or [.term { field := "body", text := "john" }]) 4]
    let a := after Positional.plainTerm { field := "body" } steps
    let b := after Positional.plainTerm { field := "body" } steps.reverse
    steps.Perm steps.reverse ∧ (∀ s ∈ steps, s.isClear = false) ∧
      a.count = 2 ∧ b.count = 2 ∧ a.HasWeight "body" "john" 7 ∧ b.HasWeight "body" "john" 7 ∧
      (a.alternatives Float32.ofNat).Perm (b.alternatives Float32.ofNat) := by
  intro steps a b
  have hclear : ∀ s ∈ steps, s.isClear = false := by decide
  have hperm : steps.Perm steps.reverse := steps.reverse_perm.symm
  have ha : a.count = 2 := by decide +kernel
  have hweight : a.HasWeight "body" "john" 7 := ⟨1, List.mem_cons_self⟩
  obtain ⟨hcount, hweights, halternatives, -, -⟩ :=
    after_perm Positional.plainTerm "body" Float32.ofNat hperm hclear
  exact ⟨hperm, hclear, ha, hcount.symm.trans ha, hweight, (hweights _ _ _).mp hweight,
    halternatives⟩

end IndexedAggregate

end ProximityQuery
