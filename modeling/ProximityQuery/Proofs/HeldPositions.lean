import ProximityQuery.Proofs.Acceptance

/-!
# Positions that are held

A factory may make nothing of a word. What a position is left with then depends on where the word
stands: a group that is left with nothing it allows holds its position with the never-matching term,
and a word at the top of the phrase gives its position up. No other clause takes the alternation of
nothing for its position.
-/

namespace ProximityQuery

namespace Positional

/-- Only the alternation of nothing is empty. -/
theorem isEmpty_iff {clause : Positional} : clause.isEmpty = true ↔ clause = .empty := by
  constructor
  · intro h
    unfold isEmpty at h
    split at h
    · rfl
    · cases h
  · rintro rfl
    rfl

/-- A boost makes no clause empty and none other than empty. -/
theorem isEmpty_setBoost (boost : Float32) (clause : Positional) :
    (clause.setBoost boost).isEmpty = clause.isEmpty := by
  cases clause <;> rfl

end Positional

namespace Aggregate

variable {W : Type}

section

variable [Add W]

/-- Adding to some entries leaves at least one. -/
theorem addEntry_ne_nil (clause : Positional) (weight : W) (entries : List (Positional × W)) :
    addEntry clause weight entries ≠ [] := by
  cases entries with
  | nil => exact List.cons_ne_nil _ _
  | cons e rest =>
    rw [addEntry]
    split <;> exact List.cons_ne_nil _ _

/-- An aggregate stays without entries as long as nothing is added but alternations of nothing. -/
theorem count_add_eq_zero_iff {a : Aggregate W} {clause : Positional} {weight : W} :
    (a.add clause weight).count = 0 ↔ a.count = 0 ∧ clause.isEmpty = true := by
  rw [add]
  split
  next hempty => simp [hempty]
  next hempty =>
    have hentries := addEntry_ne_nil clause weight a.entries
    simp [count, hempty, hentries]

/-- No entry is an alternation of nothing. -/
theorem isEmpty_of_mem_add {a : Aggregate W} (h : ∀ e ∈ a.entries, e.1.isEmpty = false)
    (clause : Positional) (weight : W) :
    ∀ e ∈ (a.add clause weight).entries, e.1.isEmpty = false := by
  rw [add]
  split
  · exact h
  next hempty =>
    exact forall_mem_addEntry (P := fun clause => clause.isEmpty = false)
      (Bool.eq_false_iff.mpr hempty) h

end

/-- What is built of some entries is not an alternation of nothing. -/
theorem isEmpty_build {narrow : W → Float32} {a : Aggregate W}
    (h : ∀ e ∈ a.entries, e.1.isEmpty = false) (hcount : a.count ≠ 0) :
    (a.build narrow).isEmpty = false := by
  rcases a.build_cases narrow with ⟨e, hsole, hbuild⟩ | ⟨-, hbuild⟩
  · rw [hbuild, Positional.isEmpty_setBoost]
    exact h e (hsole ▸ List.mem_cons_self)
  · rw [hbuild, Bool.eq_false_iff, ne_eq, Positional.isEmpty_iff]
    intro hnone
    injection hnone with hnone
    rw [List.map_eq_nil_iff] at hnone
    exact hcount (List.length_eq_zero_iff.mpr hnone)

end Aggregate

namespace Rewriter

/-- Additions leave an aggregate without entries just when it had none and all of them are empty. -/
theorem count_foldl_add_eq_zero_iff {ms : List Member} {a : Aggregate Float} :
    (ms.foldl (fun a m => a.add m.1.1 m.1.2) a).count = 0 ↔
      a.count = 0 ∧ ∀ m ∈ ms, m.1.1.isEmpty = true := by
  induction ms generalizing a with
  | nil => simp
  | cons m rest ih =>
    rw [List.foldl_cons, ih, Aggregate.count_add_eq_zero_iff, List.forall_mem_cons, and_assoc]

variable (r : Rewriter)

/-- Members leave nothing when each of them is an alternation of nothing. -/
theorem count_collect_eq_zero_iff {ms : List Member} :
    (r.collect ms).count = 0 ↔ ∀ m ∈ ms, m.1.1.isEmpty = true := by
  rw [collect, count_foldl_add_eq_zero_iff]
  exact and_iff_right rfl

/-- No entry of a collection is empty. -/
theorem isEmpty_collect (ms : List Member) :
    ∀ e ∈ (r.collect ms).entries, e.1.isEmpty = false :=
  r.collect_induction (P := fun a => ∀ e ∈ a.entries, e.1.isEmpty = false) (by simp)
    fun m _ _ ha => Aggregate.isEmpty_of_mem_add ha m.1.1 m.1.2

/-- What a group allows is not empty: where it would be, the never-matching term stands. -/
theorem isEmpty_allowance {included : Aggregate Float}
    (h : ∀ e ∈ included.entries, e.1.isEmpty = false) :
    (r.allowance included).isEmpty = false := by
  unfold allowance
  split
  · rfl
  next hcount => exact Aggregate.isEmpty_build h hcount

/-- A group holds its position, whatever the factory makes of its words. -/
theorem isEmpty_combine (ms : List Member) : (r.combine ms).isEmpty = false := by
  unfold combine
  dsimp only
  split
  · exact r.isEmpty_allowance (r.isEmpty_collect _)
  · rfl

/-- A clause at the top gives its position up when it is a word that the factory makes nothing of,
and not otherwise. -/
theorem isEmpty_position_iff {tree : ClauseTree} :
    (r.position tree).isEmpty = true ↔
      ∃ t, tree = .term t ∧ (r.factory t.field t.text).isEmpty = true := by
  cases tree with
  | term t =>
    rw [position, Positional.isEmpty_setBoost]
    simp
  | composite children =>
    rw [position, isEmpty_combine]
    simp

/-- A group that is left with nothing it allows has the never-matching term for it. -/
theorem combine_of_nothing_allowed {ms : List Member}
    (h : ∀ m ∈ ms, m.2.isProhibited = false → m.1.1.isEmpty = true) :
    r.combine ms = .never r.field ∨ ∃ excluded, r.combine ms = .not (.never r.field) excluded := by
  have hcount : (r.collect (ms.filter fun m => !m.2.isProhibited)).count = 0 := by
    rw [count_collect_eq_zero_iff]
    intro m hm
    obtain ⟨hmem, hallowed⟩ := List.mem_filter.mp hm
    exact h m hmem (by simpa using hallowed)
  have hallowance : r.allowance (r.collect (ms.filter fun m => !m.2.isProhibited)) =
      .never r.field := if_pos hcount
  unfold combine
  dsimp only
  rw [hallowance]
  split
  · exact .inl rfl
  · exact .inr ⟨_, rfl⟩

end Rewriter

/-- What holds the positions of a phrase, whatever the factory. The query is put together from one
slot for each clause at the top: their sequence, or what is included except that sequence, which is a
slot by itself or a sequence of some slots. A slot is the alternation of nothing just when it is that
of a word, standing at the top, of which the factory makes nothing. A group of which such a word is
the only member allowed has the never-matching term in its place. -/
theorem rewrite_holds_positions (r : Rewriter) (children : List (ClauseTree × Occur)) :
    let slots := children.map fun c => r.position c.1
    (∃ included : Positional,
      (included ∈ slots ∨ ∃ kept slop, included = .near kept slop r.inOrder ∧ kept ⊆ slots) ∧
      r.rewrite (.composite children) = .positional
        (if children.any fun c => c.2.isProhibited
          then .not included (.near slots r.slop r.inOrder) else .near slots r.slop r.inOrder)) ∧
    (∀ c ∈ children, (r.position c.1).isEmpty = true ↔
      ∃ t, c.1 = .term t ∧ (r.factory t.field t.text).isEmpty = true) ∧
    (∀ (group : List (ClauseTree × Occur)) t o,
      group.filter (fun c => !c.2.isProhibited) = [(.term t, o)] →
      (r.factory r.field t.text).isEmpty = true →
      r.position (.composite group) = .never r.field ∨
        ∃ excluded, r.position (.composite group) = .not (.never r.field) excluded) := by
  intro slots
  refine ⟨?_, fun c _ => r.isEmpty_position_iff, ?_⟩
  · obtain ⟨included, hincluded, hsequence⟩ := r.exists_included children
    exact ⟨included, hincluded, congrArg Query.positional hsequence⟩
  · intro group t o hgroup hword
    refine r.combine_of_nothing_allowed ?_
    rw [r.members_eq_map]
    intro m hm hallowed
    obtain ⟨c, hc, rfl⟩ := List.mem_map.mp hm
    have hmem : c ∈ group.filter fun c => !c.2.isProhibited :=
      List.mem_filter.mpr ⟨hc, by simpa using hallowed⟩
    rw [hgroup] at hmem
    obtain rfl := List.mem_singleton.mp hmem
    exact hword

/-- Makes nothing of one word, and a plain term of any other. -/
def Positional.withoutWord (word : String) : LeafFactory := fun field text =>
  if text = word then .empty else plainTerm field text

/-- The first position of `the smith` is given up when the factory makes nothing of `the`. -/
theorem rewrite_gives_up_position_of_word :
    Rewriter.rewrite
        { field := "body", slop := 0, inOrder := true, factory := Positional.withoutWord "the" }
        (.composite [(.term { field := "body", text := "the" }, .should),
          (.term { field := "body", text := "smith" }, .should)]) =
      .positional (.near [.empty, .term { field := "body", text := "smith" }] 0 true) := by
  rfl

end ProximityQuery
