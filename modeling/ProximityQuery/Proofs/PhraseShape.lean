import ProximityQuery.Phrase.Rewrite

/-!
# The shape of rewritten phrases

Every clause at the top of a phrase has a slot. The slot is decided by the clause, the field and the
factory: neither the clauses around it nor the slop and the order have a part in it, and a required
clause counts as an optional one at any depth. The query of the phrase is put together from the slots
alone, those of the prohibited clauses being matched with the others and then excluded.
-/

namespace ProximityQuery

/-- The part of a clause when nothing is required. -/
def Occur.relaxed : Occur → Occur
  | .must | .should => .should
  | .mustNot => .mustNot

/-- A relaxed clause is prohibited just when it was. -/
theorem Occur.isProhibited_relaxed (o : Occur) : o.relaxed.isProhibited = o.isProhibited := by
  cases o <;> rfl

namespace ClauseTree

mutual

/-- The tree with optional clauses in the place of the required ones, at any depth. -/
def relaxed : ClauseTree → ClauseTree
  | .term t => .term t
  | .composite children => .composite (relaxedAll children)

/-- The children with optional clauses in the place of the required ones, at any depth. -/
def relaxedAll : List (ClauseTree × Occur) → List (ClauseTree × Occur)
  | [] => []
  | (child, occur) :: rest => (child.relaxed, occur.relaxed) :: relaxedAll rest

end

/-- The children of a tree are relaxed one by one. -/
theorem relaxedAll_eq_map (children : List (ClauseTree × Occur)) :
    relaxedAll children = children.map fun c => (c.1.relaxed, c.2.relaxed) := by
  induction children with
  | nil => rfl
  | cons c rest ih => rw [relaxedAll, ih, List.map_cons]

end ClauseTree

namespace Rewriter

/-- The members of a group are made one by one. -/
theorem members_eq_map (r : Rewriter) (children : List (ClauseTree × Occur)) :
    r.members children = children.map fun c => (r.member c.1, c.2) := by
  induction children with
  | nil => rfl
  | cons c rest ih => rw [members, ih, List.map_cons]

section

variable {r r' : Rewriter} (hfield : r.field = r'.field)

include hfield

/-- How members fill a position depends on the field alone. -/
theorem combine_eq_of_field (ms : List Member) : r.combine ms = r'.combine ms := by
  have hcollect : ∀ ms, r.collect ms = r'.collect ms := by
    intro ms
    rw [collect, collect, hfield]
  have hallowance : ∀ included, r.allowance included = r'.allowance included := by
    intro included
    rw [allowance, allowance, hfield]
  rw [combine, combine, hcollect, hcollect, hallowance]

variable (hfactory : r.factory = r'.factory)

include hfactory

/-- A member of a group depends on the field and the factory of words, and not on slop or order. -/
theorem member_eq_of_factory (tree : ClauseTree) : r.member tree = r'.member tree := by
  induction tree with
  | term t => rw [member, member, hfield, hfactory]
  | composite children ih =>
    have hmembers : r.members children = r'.members children := by
      rw [members_eq_map, members_eq_map]
      exact List.map_congr_left fun c hc => by rw [ih c hc]
    rw [member, member, hmembers, combine_eq_of_field hfield]

/-- Phrases about one field, with one factory, have the same slots. -/
theorem position_eq_of_factory (tree : ClauseTree) : r.position tree = r'.position tree := by
  cases tree with
  | term t => rw [position, position, hfactory]
  | composite children =>
    exact congrArg Prod.fst (member_eq_of_factory hfield hfactory (.composite children))

end

section

variable (r : Rewriter)

/-- What is collected does not depend on the parts that the members play. -/
theorem collect_relaxed (ms : List Member) :
    r.collect (ms.map fun m => (m.1, m.2.relaxed)) = r.collect ms :=
  List.foldl_map

/-- A group of required members takes the position that it takes when they are optional. -/
theorem combine_relaxed (ms : List Member) :
    r.combine (ms.map fun m => (m.1, m.2.relaxed)) = r.combine ms := by
  have hfilter : ∀ passes : Bool → Bool,
      r.collect ((ms.map fun m => (m.1, m.2.relaxed)).filter fun m => passes m.2.isProhibited) =
        r.collect (ms.filter fun m => passes m.2.isProhibited) := by
    intro passes
    rw [List.filter_map, collect_relaxed]
    simp only [Function.comp_def, Occur.isProhibited_relaxed]
  have hincluded := hfilter not
  have hexcluded := hfilter id
  simp only [id_eq] at hexcluded
  rw [combine, combine, hincluded, hexcluded]

/-- A member of a group is the same whether clauses inside it are required or optional. -/
theorem member_relaxed (tree : ClauseTree) : r.member tree.relaxed = r.member tree := by
  induction tree with
  | term t => rfl
  | composite children ih =>
    have hmembers : r.members (ClauseTree.relaxedAll children) =
        (r.members children).map fun m => (m.1, m.2.relaxed) := by
      rw [members_eq_map, members_eq_map, ClauseTree.relaxedAll_eq_map, List.map_map, List.map_map]
      exact List.map_congr_left fun c hc => by rw [Function.comp_apply, ih c hc]; rfl
    rw [ClauseTree.relaxed, member, member, hmembers, combine_relaxed]

/-- So is the position of a clause at the top. -/
theorem position_relaxed (tree : ClauseTree) : r.position tree.relaxed = r.position tree := by
  cases tree with
  | term t => rfl
  | composite children => exact congrArg Prod.fst (r.member_relaxed (.composite children))

/-- The query of a phrase from all its slots, the slots that are kept and the number of those that are
prohibited. -/
def assemble (slots kept : List Positional) (prohibited : Nat) : Positional :=
  let whole : Positional := .near slots r.slop r.inOrder
  if prohibited = 0 then whole
  else
    match kept with
    | [only] => .not only whole
    | _ => .not (.near kept (addSlop r.slop prohibited) r.inOrder) whole

/-- Without prohibited clauses a phrase is the sequence of all slots. -/
theorem assemble_of_none_prohibited (slots kept : List Positional) :
    r.assemble slots kept 0 = .near slots r.slop r.inOrder :=
  rfl

/-- A slot that is the only one kept is included by itself. -/
theorem assemble_of_one_kept (slots : List Positional) (only : Positional) {prohibited : Nat}
    (h : prohibited ≠ 0) :
    r.assemble slots [only] prohibited = .not only (.near slots r.slop r.inOrder) :=
  if_neg h

/-- Any other number of slots is included as a sequence with more slop. -/
theorem assemble_of_some_kept (slots : List Positional) {kept : List Positional} {prohibited : Nat}
    (h : prohibited ≠ 0) (hkept : kept.length ≠ 1) :
    r.assemble slots kept prohibited =
      .not (.near kept (addSlop r.slop prohibited) r.inOrder) (.near slots r.slop r.inOrder) := by
  rw [assemble, if_neg h]
  rintro only rfl
  exact hkept rfl

/-- Of the clauses at the top only their positions and which are prohibited enter into the query. -/
theorem sequence_eq_assemble (children : List (ClauseTree × Occur)) :
    r.sequence children = r.assemble (children.map fun c => r.position c.1)
      ((children.filter fun c => !c.2.isProhibited).map fun c => r.position c.1)
      (children.countP fun c => c.2.isProhibited) := by
  have hslots : (children.map fun c => r.position c.1) =
      (children.map fun c => (r.position c.1, c.2)).map Prod.fst := by
    rw [List.map_map]
    rfl
  have hkept : ((children.filter fun c => !c.2.isProhibited).map fun c => r.position c.1) =
      ((children.map fun c => (r.position c.1, c.2)).filter
        fun p => !p.2.isProhibited).map Prod.fst := by
    rw [List.filter_map, List.map_map]
    rfl
  have hprohibited : (children.countP fun c => c.2.isProhibited) =
      (children.map fun c => (r.position c.1, c.2)).countP fun p => p.2.isProhibited := by
    rw [List.countP_map]
    rfl
  rw [hslots, hkept, hprohibited]
  rfl

/-- Without prohibited clauses all positions are near one another with the slop of the phrase. -/
theorem sequence_of_none_prohibited {children : List (ClauseTree × Occur)}
    (h : children.countP (fun c => c.2.isProhibited) = 0) :
    r.sequence children = .near (children.map fun c => r.position c.1) r.slop r.inOrder := by
  rw [sequence_eq_assemble, h, assemble_of_none_prohibited]

/-- A single clause that is not prohibited stands by itself, without a sequence. -/
theorem sequence_of_one_kept {children : List (ClauseTree × Occur)} {only : ClauseTree × Occur}
    (h : children.countP (fun c => c.2.isProhibited) ≠ 0)
    (honly : children.filter (fun c => !c.2.isProhibited) = [only]) :
    r.sequence children = .not (r.position only.1)
      (.near (children.map fun c => r.position c.1) r.slop r.inOrder) := by
  rw [sequence_eq_assemble, honly]
  exact r.assemble_of_one_kept _ _ h

/-- Several clauses that are not prohibited, or none, are a sequence with more slop. -/
theorem sequence_of_some_kept {children : List (ClauseTree × Occur)}
    (h : children.countP (fun c => c.2.isProhibited) ≠ 0)
    (hkept : (children.filter fun c => !c.2.isProhibited).length ≠ 1) :
    r.sequence children = .not
      (.near ((children.filter fun c => !c.2.isProhibited).map fun c => r.position c.1)
        (addSlop r.slop (children.countP fun c => c.2.isProhibited)) r.inOrder)
      (.near (children.map fun c => r.position c.1) r.slop r.inOrder) := by
  rw [sequence_eq_assemble]
  exact r.assemble_of_some_kept _ h (by rwa [List.length_map])

/-- With a prohibited clause the whole sequence is excluded, from one slot or from a sequence of some
slots; without one it is the query. -/
theorem exists_included (children : List (ClauseTree × Occur)) :
    let slots := children.map fun c => r.position c.1
    ∃ included : Positional,
      (included ∈ slots ∨ ∃ kept slop, included = .near kept slop r.inOrder ∧ kept ⊆ slots) ∧
      r.sequence children =
        if children.any fun c => c.2.isProhibited then .not included (.near slots r.slop r.inOrder)
        else .near slots r.slop r.inOrder := by
  intro slots
  have hkept : ((children.filter fun c => !c.2.isProhibited).map fun c => r.position c.1) ⊆ slots :=
    List.map_subset _ fun _ hc => (List.mem_filter.mp hc).1
  have hany : (children.any fun c => c.2.isProhibited) = true ↔
      children.countP (fun c => c.2.isProhibited) ≠ 0 := by
    rw [← Nat.pos_iff_ne_zero, List.countP_pos_iff, List.any_eq_true]
  by_cases hnone : children.countP (fun c => c.2.isProhibited) = 0
  · refine ⟨.near [] 0 r.inOrder, .inr ⟨[], 0, rfl, List.nil_subset _⟩, ?_⟩
    rw [r.sequence_of_none_prohibited hnone, if_neg fun h => hany.mp h hnone]
  by_cases hone : (children.filter fun c => !c.2.isProhibited).length = 1
  · obtain ⟨only, honly⟩ := List.length_eq_one_iff.mp hone
    rw [honly] at hkept
    refine ⟨r.position only.1, .inl (hkept List.mem_cons_self), ?_⟩
    rw [r.sequence_of_one_kept hnone honly, if_pos (hany.mpr hnone)]
  · have hsequence := r.sequence_of_some_kept hnone hone
    exact ⟨_, .inr ⟨_, _, rfl, hkept⟩, hsequence.trans (if_pos (hany.mpr hnone)).symm⟩

/-- A phrase is the same whether its clauses are required or optional. -/
theorem sequence_relaxed (children : List (ClauseTree × Occur)) :
    r.sequence (ClauseTree.relaxedAll children) = r.sequence children := by
  have hslots : ((ClauseTree.relaxedAll children).map fun c => r.position c.1) =
      children.map fun c => r.position c.1 := by
    simp only [ClauseTree.relaxedAll_eq_map, List.map_map, Function.comp_def, position_relaxed]
  have hkept : (((ClauseTree.relaxedAll children).filter fun c => !c.2.isProhibited).map
      fun c => r.position c.1) =
      (children.filter fun c => !c.2.isProhibited).map fun c => r.position c.1 := by
    simp only [ClauseTree.relaxedAll_eq_map, List.filter_map, List.map_map, Function.comp_def,
      Occur.isProhibited_relaxed, position_relaxed]
  have hprohibited : (ClauseTree.relaxedAll children).countP (fun c => c.2.isProhibited) =
      children.countP fun c => c.2.isProhibited := by
    simp only [ClauseTree.relaxedAll_eq_map, List.countP_map, Function.comp_def,
      Occur.isProhibited_relaxed]
  rw [sequence_eq_assemble, sequence_eq_assemble, hslots, hkept, hprohibited]

/-- Required clauses and optional ones make the same query. -/
theorem rewrite_relaxed (tree : ClauseTree) : r.rewrite tree.relaxed = r.rewrite tree := by
  cases tree with
  | term t => rfl
  | composite children => exact congrArg Query.positional (r.sequence_relaxed children)

end

end Rewriter

/-- The shape of a rewritten phrase, whatever the factory. A phrase of one term is that term. Any
other phrase has a slot for each of its clauses. The slot of a term is what the factory makes of it,
with the boost of the term if that is a term again; the slot of a group depends on the group alone.
Without a prohibited clause the slots are matched near one another. Otherwise that sequence is
excluded from the slots that are not prohibited: from the only one by itself, and else from their
sequence, whose slop grows by one for every prohibited clause up to the greatest slop. Trees that
differ in which clauses are required rather than optional are rewritten alike. -/
theorem rewrite_shape (field : String) (factory : LeafFactory) :
    ∃ slot : ClauseTree → Positional,
      (∀ t u, factory t.field t.text = .term u →
        slot (.term t) = .term { u with boost := t.boost }) ∧
      (∀ t, (∀ u, factory t.field t.text ≠ .term u) →
        slot (.term t) = factory t.field t.text) ∧
      ∀ slop inOrder,
        let r : Rewriter := { field, slop, inOrder, factory }
        (∀ t, r.rewrite (.term t) = .term t) ∧
        (∀ children : List (ClauseTree × Occur),
          let n := children.length
          let k := children.countP fun c => c.2.isProhibited
          let kept := children.filter fun c => !c.2.isProhibited
          let whole : Positional := .near (children.map fun c => slot c.1) slop inOrder
          (k = 0 → r.rewrite (.composite children) = .positional whole) ∧
          (k ≠ 0 → n = k + 1 → ∃ only, kept = [only] ∧
            r.rewrite (.composite children) = .positional (.not (slot only.1) whole)) ∧
          (k ≠ 0 → n ≠ k + 1 → r.rewrite (.composite children) = .positional (.not
            (.near (kept.map fun c => slot c.1)
              (UInt32.ofNat (min (slop.toNat + k) (UInt32.size - 1))) inOrder)
            whole))) ∧
        (∀ tree tree' : ClauseTree, tree.relaxed = tree'.relaxed →
          r.rewrite tree = r.rewrite tree') := by
  have hslot : ∀ slop inOrder tree,
      Rewriter.position { field, slop, inOrder, factory } tree =
        Rewriter.position { field, slop := 0, inOrder := true, factory } tree := by
    intro slop inOrder tree
    refine Rewriter.position_eq_of_factory ?_ ?_ tree <;> rfl
  refine ⟨Rewriter.position { field, slop := 0, inOrder := true, factory }, ?_, ?_, ?_⟩
  · intro t u hterm
    change (factory t.field t.text).setBoost t.boost = _
    rw [hterm]
    rfl
  · intro t hother
    change (factory t.field t.text).setBoost t.boost = _
    cases hclause : factory t.field t.text with
    | term u => exact absurd hclause (hother u)
    | or clauses | near clauses slop inOrder | not included excluded => rfl
  · intro slop inOrder r
    refine ⟨fun t => rfl, ?_, ?_⟩
    · intro children n k kept whole
      have hlength : n = k + kept.length := by
        have hsplit := List.length_eq_countP_add_countP (l := children) fun c => c.2.isProhibited
        simpa [n, k, kept, List.countP_eq_length_filter] using hsplit
      have hwhole : Positional.near (children.map fun c => r.position c.1) slop inOrder = whole := by
        simp only [r, whole, hslot]
      refine ⟨?_, ?_, ?_⟩
      · intro hk
        rw [Rewriter.rewrite, r.sequence_of_none_prohibited hk]
        exact congrArg Query.positional hwhole
      · intro hk hn
        have hone : kept.length = 1 := by omega
        obtain ⟨only, honly⟩ := List.length_eq_one_iff.mp hone
        refine ⟨only, honly, ?_⟩
        rw [Rewriter.rewrite, r.sequence_of_one_kept hk honly, hslot]
        exact congrArg (fun w => Query.positional (.not _ w)) hwhole
      · intro hk hn
        have hmany : kept.length ≠ 1 := by omega
        rw [Rewriter.rewrite, r.sequence_of_some_kept hk hmany]
        simp only [r, hslot]
        rfl
    · intro tree tree' h
      rw [← r.rewrite_relaxed tree, h, r.rewrite_relaxed]

/-- In `a -b +c -d` the slop is the greatest already and does not grow, and `+c` counts as `c`. -/
theorem rewrite_shape_at_greatest_slop :
    let word (text : String) : ClauseTree := .term { field := "body", text }
    let slot (text : String) : Positional := .term { field := "body", text }
    let r : Rewriter :=
      { field := "body", slop := 4294967295, inOrder := true, factory := Positional.plainTerm }
    let tree (part : Occur) : ClauseTree :=
      .composite [(word "a", .should), (word "b", .mustNot), (word "c", part), (word "d", .mustNot)]
    r.rewrite (tree .must) = .positional (.not (.near [slot "a", slot "c"] 4294967295 true)
      (.near [slot "a", slot "b", slot "c", slot "d"] 4294967295 true)) ∧
    r.rewrite (tree .must) = r.rewrite (tree .should) := by
  intro word slot r tree
  obtain ⟨slotOf, hterm, -, hshape⟩ := rewrite_shape "body" Positional.plainTerm
  obtain ⟨-, hphrase, hrelaxed⟩ := hshape 4294967295 true
  have hword : ∀ text, slotOf (word text) = slot text :=
    fun text => hterm { field := "body", text } { field := "body", text } rfl
  refine ⟨?_, hrelaxed _ _ rfl⟩
  have hmany := (hphrase
    [(word "a", .should), (word "b", .mustNot), (word "c", .must), (word "d", .mustNot)]).2.2
    (by decide) (by decide)
  simpa [Occur.isProhibited, hword] using hmany

end ProximityQuery
