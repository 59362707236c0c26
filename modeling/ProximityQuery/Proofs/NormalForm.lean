import ProximityQuery.Proofs.AggregateHistory
import ProximityQuery.Proofs.HeldPositions

/-!
# The normal form of rewritten phrases

A rewritten phrase whose words are plain terms is in a normal form. Its slots take one position each,
an alternation has at least two alternatives, and no two of them are terms of the same text. Every
term is of the field of the phrase, and its text is that of a word of the phrase, or that of the
never-matching term where some group below the top allows nothing. The form is kept by every addition
to an aggregate, and so by the groups, from the innermost outwards.
-/

namespace ProximityQuery

namespace Positional

mutual

/-- A clause and all clauses that it is made of. -/
def subclauses : Positional → List Positional
  | .term t => [.term t]
  | .near clauses slop inOrder => .near clauses slop inOrder :: subclausesOfAll clauses
  | .or clauses => .or clauses :: subclausesOfAll clauses
  | .not included excluded => .not included excluded :: (included.subclauses ++ excluded.subclauses)

/-- The clauses of a list and all clauses that they are made of. -/
def subclausesOfAll : List Positional → List Positional
  | [] => []
  | clause :: rest => clause.subclauses ++ subclausesOfAll rest

end

/-- The clauses that a list is made of are those of its first, then those of its second,
and so on. -/
theorem subclausesOfAll_eq_flatMap (clauses : List Positional) :
    subclausesOfAll clauses = clauses.flatMap subclauses := by
  induction clauses with
  | nil => rfl
  | cons clause rest ih => rw [subclausesOfAll, ih, List.flatMap_cons]

/-- The text of a term. -/
def text? : Positional → Option String
  | .term t => some t.text
  | .near _ _ _ | .or _ | .not _ _ => none

/-- A boost does not change the text of a term. -/
theorem text?_setBoost (boost : Float32) (clause : Positional) :
    (clause.setBoost boost).text? = clause.text? := by
  cases clause <;> rfl

/-- The two sides of an exclusion; any other clause has one side. -/
def sides : Positional → List Positional
  | .not included excluded => [included, excluded]
  | clause => [clause]

/-- The clauses that are near one another; any other clause is by itself. -/
def inSequence : Positional → List Positional
  | .near clauses _ _ => clauses
  | clause => [clause]

/-- The clauses of a phrase that take a position each. -/
def slots (clause : Positional) : List Positional :=
  clause.sides.flatMap inSequence

/-- The slots of a sequence are its clauses. -/
theorem slots_near (clauses : List Positional) (slop : UInt32) (inOrder : Bool) :
    (Positional.near clauses slop inOrder).slots = clauses := by
  simp [slots, sides, inSequence]

/-- An exclusion of a sequence has the slots of both its sides. -/
theorem slots_not (included : Positional) (clauses : List Positional) (slop : UInt32)
    (inOrder : Bool) :
    (Positional.not included (.near clauses slop inOrder)).slots = included.inSequence ++ clauses := by
  simp [slots, sides, inSequence]

/-- A clause that takes one position is by itself. -/
theorem inSequence_of_nearFree {clause : Positional} (h : clause.nearFree = true) :
    clause.inSequence = [clause] := by
  cases clause with
  | near clauses slop inOrder => cases h
  | term t => rfl
  | or clauses => rfl
  | not included excluded => rfl

/-- What is asked of each clause in a phrase about a field, when only some texts may occur: a term has
the field and one of the texts, and an alternation two alternatives or more, whose terms differ in
their texts. -/
def IsProper (field : String) (allowed : String → Prop) : Positional → Prop
  | .term t => t.field = field ∧ allowed t.text
  | .or clauses => 2 ≤ clauses.length ∧ (clauses.filterMap text?).Nodup
  | .near _ _ _ | .not _ _ => True

/-- Whether all clauses that a clause is made of are proper. -/
def IsNormal (field : String) (allowed : String → Prop) (clause : Positional) : Prop :=
  ∀ part ∈ clause.subclauses, part.IsProper field allowed

section

variable {field : String} {allowed : String → Prop}

/-- A term is normal when its field and its text are the right ones. -/
theorem isNormal_term {t : Term} :
    (Positional.term t).IsNormal field allowed ↔ t.field = field ∧ allowed t.text := by
  simp [IsNormal, subclauses, IsProper]

/-- A list is made of proper clauses just when each of its clauses is normal. -/
theorem forall_mem_subclausesOfAll {clauses : List Positional} :
    (∀ part ∈ subclausesOfAll clauses, part.IsProper field allowed) ↔
      ∀ clause ∈ clauses, clause.IsNormal field allowed := by
  rw [subclausesOfAll_eq_flatMap]
  exact List.forall_mem_flatMap

/-- A normal alternation has at least two clauses, all of them normal, and no two terms of the same
text. -/
theorem isNormal_or {clauses : List Positional} :
    (Positional.or clauses).IsNormal field allowed ↔
      (2 ≤ clauses.length ∧ (clauses.filterMap text?).Nodup) ∧
        ∀ clause ∈ clauses, clause.IsNormal field allowed := by
  rw [IsNormal, subclauses, List.forall_mem_cons, forall_mem_subclausesOfAll]
  rfl

/-- A sequence is normal when its clauses are. -/
theorem isNormal_near {clauses : List Positional} {slop : UInt32} {inOrder : Bool} :
    (Positional.near clauses slop inOrder).IsNormal field allowed ↔
      ∀ clause ∈ clauses, clause.IsNormal field allowed := by
  rw [IsNormal, subclauses, List.forall_mem_cons, forall_mem_subclausesOfAll]
  exact and_iff_right trivial

/-- An exclusion is normal when both its sides are. -/
theorem isNormal_not {included excluded : Positional} :
    (Positional.not included excluded).IsNormal field allowed ↔
      included.IsNormal field allowed ∧ excluded.IsNormal field allowed := by
  rw [IsNormal, subclauses, List.forall_mem_cons, List.forall_mem_append]
  exact and_iff_right trivial

/-- A boost keeps a clause normal. -/
theorem IsNormal.setBoost {clause : Positional} (h : clause.IsNormal field allowed)
    (boost : Float32) : (clause.setBoost boost).IsNormal field allowed := by
  cases clause with
  | term t =>
    have hterm := isNormal_term.mp h
    exact isNormal_term.mpr ⟨hterm.1, hterm.2⟩
  | near clauses slop inOrder => exact h
  | or clauses => exact h
  | not included excluded => exact h

/-- The alternation of nothing is not normal. -/
theorem IsNormal.isEmpty {clause : Positional} (h : clause.IsNormal field allowed) :
    clause.isEmpty = false := by
  rw [Bool.eq_false_iff, ne_eq, isEmpty_iff]
  rintro rfl
  exact absurd (isNormal_or.mp h).1.1 (by decide)

/-- Normal terms of the same text are the same term. -/
theorem IsNormal.sameTerm {clause other : Positional} (h : clause.IsNormal field allowed)
    (hother : other.IsNormal field allowed) {text : String} (htext : clause.text? = some text)
    (hsame : other.text? = some text) : Aggregate.sameTerm clause other = true := by
  cases clause with
  | near clauses slop inOrder => cases htext
  | or clauses => cases htext
  | not included excluded => cases htext
  | term t =>
    cases other with
    | near clauses slop inOrder => cases hsame
    | or clauses => cases hsame
    | not included excluded => cases hsame
    | term u =>
      have hfield : t.field = u.field := (isNormal_term.mp h).1.trans (isNormal_term.mp hother).1.symm
      have htexts : t.text = u.text := Option.some.inj (htext.trans hsame.symm)
      simp [Aggregate.sameTerm, hfield, htexts]

end

end Positional

namespace ClauseTree

mutual

/-- The groups of a tree, each as the clauses it has: the tree itself, if it is one, and those in it. -/
def groups : ClauseTree → List (List (ClauseTree × Occur))
  | .term _ => []
  | .composite children => children :: groupsBelow children

/-- The groups in the clauses of a level. -/
def groupsBelow : List (ClauseTree × Occur) → List (List (ClauseTree × Occur))
  | [] => []
  | (child, _) :: rest => child.groups ++ groupsBelow rest

end

/-- The groups in some clauses are those of the first, then those of the second, and so on. -/
theorem groupsBelow_eq_flatMap (children : List (ClauseTree × Occur)) :
    groupsBelow children = children.flatMap fun c => c.1.groups := by
  induction children with
  | nil => rfl
  | cons c rest ih => rw [groupsBelow, ih, List.flatMap_cons]

/-- Whether a text comes from some terms and some groups: it is that of one of the terms, or it is
that of the never-matching term and one of the groups has nothing but prohibited clauses. -/
def Supplies (terms : List Term) (groups : List (List (ClauseTree × Occur))) (text : String) : Prop :=
  (∃ t ∈ terms, t.text = text) ∨
    text = Positional.neverText ∧ ∃ group ∈ groups, ∀ c ∈ group, c.2 = .mustNot

/-- A clause of a level supplies no other texts than the level. -/
theorem Supplies.of_mem {children : List (ClauseTree × Occur)} {c : ClauseTree × Occur}
    (hc : c ∈ children) {text : String} (h : Supplies c.1.leaves c.1.groups text) :
    Supplies (leavesAll children) (groupsBelow children) text := by
  rw [leavesAll_eq_flatMap, groupsBelow_eq_flatMap]
  rcases h with ⟨t, ht, htext⟩ | ⟨hnever, group, hgroup, hall⟩
  · exact .inl ⟨t, List.mem_flatMap.mpr ⟨c, hc, ht⟩, htext⟩
  · exact .inr ⟨hnever, group, List.mem_flatMap.mpr ⟨c, hc, hgroup⟩, hall⟩

end ClauseTree

namespace Aggregate

variable {W : Type} {field : String} {allowed : String → Prop}

/-- Whether the entries are normal clauses and no two of them are terms of the same text. -/
structure IsNormal (field : String) (allowed : String → Prop) (a : Aggregate W) : Prop where
  entries : ∀ e ∈ a.entries, e.1.IsNormal field allowed
  distinct : (a.entries.filterMap fun e => e.1.text?).Nodup

section

variable [Add W]

/-- A clause that is merged into the entry of its text leaves the clauses of the entries as they
are. -/
theorem map_fst_addEntry_of_same {clause : Positional} {entries : List (Positional × W)}
    (h : ∃ e ∈ entries, sameTerm e.1 clause = true) (weight : W) :
    (addEntry clause weight entries).map Prod.fst = entries.map Prod.fst := by
  induction entries with
  | nil =>
    obtain ⟨e, he, -⟩ := h
    cases he
  | cons e rest ih =>
    rw [addEntry]
    split
    · rfl
    next hne =>
      rcases h with ⟨e', he', hsame⟩
      rcases List.mem_cons.mp he' with rfl | hrest
      · exact absurd hsame hne
      · rw [List.map_cons, ih ⟨e', hrest, hsame⟩]
        rfl

/-- A normal clause is merged into the entry of its text or is the first of its text. -/
theorem distinct_addEntry {clause : Positional} {entries : List (Positional × W)}
    (hclause : clause.IsNormal field allowed)
    (hentries : ∀ e ∈ entries, e.1.IsNormal field allowed)
    (hdistinct : (entries.filterMap fun e => e.1.text?).Nodup) (weight : W) :
    ((addEntry clause weight entries).filterMap fun e => e.1.text?).Nodup := by
  by_cases hsame : ∃ e ∈ entries, sameTerm e.1 clause = true
  · have htexts : ((addEntry clause weight entries).filterMap fun e => e.1.text?) =
        entries.filterMap fun e => e.1.text? := by
      have hclauses := map_fst_addEntry_of_same hsame weight
      have hmap := congrArg (List.filterMap Positional.text?) hclauses
      rwa [List.filterMap_map, List.filterMap_map] at hmap
    rw [htexts]
    exact hdistinct
  · have hnew : ∀ e ∈ entries, sameTerm e.1 clause = false := by
      intro e he
      exact Bool.eq_false_iff.mpr fun h => hsame ⟨e, he, h⟩
    rw [addEntry_of_new hnew, List.filterMap_append, List.nodup_append]
    refine ⟨hdistinct, ?_, ?_⟩
    · cases htext : clause.text? <;> simp [htext]
    · rintro text hmem other hother rfl
      obtain ⟨e, he, htext⟩ := List.mem_filterMap.mp hmem
      obtain ⟨e', he', hother⟩ := List.mem_filterMap.mp hother
      obtain rfl := List.mem_singleton.mp he'
      have hmerged := (hentries e he).sameTerm hclause htext hother
      exact absurd hmerged (Bool.eq_false_iff.mp (hnew e he))

/-- A normal clause that is added keeps an aggregate normal. -/
theorem IsNormal.add {a : Aggregate W} (h : a.IsNormal field allowed) {clause : Positional}
    (hclause : clause.IsNormal field allowed) (weight : W) :
    (a.add clause weight).IsNormal field allowed := by
  rw [Aggregate.add]
  split
  · exact h
  · exact ⟨forall_mem_addEntry hclause h.entries, distinct_addEntry hclause h.entries h.distinct weight⟩

end

/-- What is built of some entries is normal if they are. -/
theorem IsNormal.build {a : Aggregate W} (h : a.IsNormal field allowed) (hcount : a.count ≠ 0)
    (narrow : W → Float32) : (a.build narrow).IsNormal field allowed := by
  rcases a.build_cases narrow with ⟨e, hsole, hbuild⟩ | ⟨hone, hbuild⟩
  · rw [hbuild]
    exact (h.entries e (hsole ▸ List.mem_cons_self)).setBoost _
  · rw [hbuild, Positional.isNormal_or]
    refine ⟨⟨?_, ?_⟩, ?_⟩
    · rw [count] at hcount
      rw [List.length_map]
      omega
    · rw [List.filterMap_map]
      simpa only [Function.comp_def, Positional.text?_setBoost] using h.distinct
    · exact List.forall_mem_map.mpr fun e he => (h.entries e he).setBoost _

end Aggregate

namespace Rewriter

variable (r : Rewriter) {allowed : String → Prop}

/-- Normal members are collected into a normal aggregate. -/
theorem isNormal_collect {ms : List Member} (h : ∀ m ∈ ms, m.1.1.IsNormal r.field allowed)
    (passes : Member → Bool) : (r.collect (ms.filter passes)).IsNormal r.field allowed :=
  r.collect_induction ⟨by simp, List.nodup_nil⟩
    fun m hm _ ha => ha.add (h m (List.mem_of_mem_filter hm)) m.1.2

/-- A group of normal members is normal, if the text of the never-matching term may occur in case the
group allows nothing. -/
theorem isNormal_combine {ms : List Member} (h : ∀ m ∈ ms, m.1.1.IsNormal r.field allowed)
    (hnever : (∀ m ∈ ms, m.2.isProhibited = true) → allowed Positional.neverText) :
    (r.combine ms).IsNormal r.field allowed := by
  have hincluded := r.isNormal_collect h fun m => !m.2.isProhibited
  have hexcluded := r.isNormal_collect h fun m => m.2.isProhibited
  have hallowance :
      (r.allowance (r.collect (ms.filter fun m => !m.2.isProhibited))).IsNormal r.field allowed := by
    unfold allowance
    split
    next hcount =>
      -- no member is an alternation of nothing, so there is none that is not prohibited
      rw [count_collect_eq_zero_iff] at hcount
      refine Positional.isNormal_term.mpr ⟨rfl, hnever fun m hm => ?_⟩
      by_contra hprohibited
      have hempty := hcount m (List.mem_filter.mpr ⟨hm, by simpa using hprohibited⟩)
      rw [(h m hm).isEmpty] at hempty
      cases hempty
    next hcount => exact hincluded.build hcount _
  unfold combine
  dsimp only
  split
  · exact hallowance
  next hcount => exact Positional.isNormal_not.mpr ⟨hallowance, hexcluded.build hcount _⟩

section

variable {r} (hr : r.factory = Positional.plainTerm)

include hr

/-- A member of a group is normal, and has no other texts than its tree supplies. -/
theorem isNormal_member (tree : ClauseTree)
    (hallowed : ∀ text, ClauseTree.Supplies tree.leaves tree.groups text → allowed text) :
    (r.member tree).1.IsNormal r.field allowed := by
  induction tree with
  | term t =>
    rw [member, hr]
    exact Positional.isNormal_term.mpr
      ⟨rfl, hallowed t.text (.inl ⟨t, List.mem_singleton.mpr rfl, rfl⟩)⟩
  | composite children ih =>
    rw [member]
    refine isNormal_combine r ?_ ?_
    · rw [members_eq_map]
      refine List.forall_mem_map.mpr fun c hc => ih c hc fun text htext => hallowed text ?_
      rcases ClauseTree.Supplies.of_mem hc htext with hleaf | ⟨hnever, group, hgroup, hall⟩
      · exact .inl hleaf
      · exact .inr ⟨hnever, group, List.mem_cons_of_mem _ hgroup, hall⟩
    · intro hall
      refine hallowed _ (.inr ⟨rfl, children, List.mem_cons_self, fun c hc => ?_⟩)
      rw [members_eq_map] at hall
      exact Occur.isProhibited_iff.mp (hall _ (List.mem_map_of_mem hc))

/-- So is the position of a clause at the top, when its terms are of the field. -/
theorem isNormal_position (tree : ClauseTree) (hfield : ∀ t ∈ tree.leaves, t.field = r.field)
    (hallowed : ∀ text, ClauseTree.Supplies tree.leaves tree.groups text → allowed text) :
    (r.position tree).IsNormal r.field allowed := by
  cases tree with
  | term t =>
    have ht : t ∈ (ClauseTree.term t).leaves := List.mem_singleton.mpr rfl
    rw [position, hr]
    exact Positional.isNormal_term.mpr ⟨hfield t ht, hallowed t.text (.inl ⟨t, ht, rfl⟩)⟩
  | composite children => exact isNormal_member hr (.composite children) hallowed

end

/-- A phrase whose slots are normal and take one position each. -/
theorem isNormal_sequence {children : List (ClauseTree × Occur)}
    (hnormal : ∀ c ∈ children, (r.position c.1).IsNormal r.field allowed)
    (hfree : ∀ c ∈ children, (r.position c.1).nearFree = true) :
    (r.sequence children).IsNormal r.field allowed ∧
      ∀ slot ∈ (r.sequence children).slots, slot.nearFree = true := by
  have hslots : ∀ slot ∈ children.map fun c => r.position c.1,
      slot.IsNormal r.field allowed ∧ slot.nearFree = true :=
    List.forall_mem_map.mpr fun c hc => ⟨hnormal c hc, hfree c hc⟩
  have hwhole : (Positional.near (children.map fun c => r.position c.1) r.slop
      r.inOrder).IsNormal r.field allowed :=
    Positional.isNormal_near.mpr fun slot hslot => (hslots slot hslot).1
  obtain ⟨included, hincluded, hsequence⟩ := r.exists_included children
  rw [hsequence]
  split
  · -- the slots that are included are among the slots of the whole sequence
    obtain ⟨hkept, hnormal⟩ : included.inSequence ⊆ (children.map fun c => r.position c.1) ∧
        included.IsNormal r.field allowed := by
      rcases hincluded with hslot | ⟨kept, slop, rfl, hkept⟩
      · rw [Positional.inSequence_of_nearFree (hslots included hslot).2]
        exact ⟨by simpa using hslot, (hslots included hslot).1⟩
      · exact ⟨hkept, Positional.isNormal_near.mpr fun slot hslot => (hslots slot (hkept hslot)).1⟩
    refine ⟨Positional.isNormal_not.mpr ⟨hnormal, hwhole⟩, ?_⟩
    rw [Positional.slots_not, List.forall_mem_append]
    exact ⟨fun slot hslot => (hslots slot (hkept hslot)).2, fun slot hslot => (hslots slot hslot).2⟩
  · rw [Positional.slots_near]
    exact ⟨hwhole, fun slot hslot => (hslots slot hslot).2⟩

end Rewriter

/-- The positional clause that a query is, a term being one as well. -/
def Query.clause? : Query → Option Positional
  | .term t => some (.term t)
  | .positional clause => some clause
  | .boolean _ | .multiTerm _ _ _ | .boosted _ _ | .phrase _ => none

/-- The groups of a tree without the tree itself. -/
def ClauseTree.groupsInside : ClauseTree → List (List (ClauseTree × Occur))
  | .term _ => []
  | .composite children => groupsBelow children

/-- The normal form of a phrase of plain terms, all of one field. Clauses are near one another only in
the query as a whole or on the two sides of its exclusion, and not in a slot. Every alternation has two
alternatives or more, whose terms differ in their texts; there is no alternation of nothing. Every term
is of the field, and its text is that of a term of the phrase, or it is the never-matching term and
some group below the top of the phrase has nothing but prohibited clauses. -/
theorem rewrite_normal_form {r : Rewriter} (hfactory : r.factory = Positional.plainTerm)
    {tree : ClauseTree} (hfield : ∀ t ∈ tree.leaves, t.field = r.field) :
    ∃ clause : Positional, (r.rewrite tree).clause? = some clause ∧
      (∀ slot ∈ clause.slots, slot.nearFree = true) ∧
      (∀ alternatives, .or alternatives ∈ clause.subclauses →
        2 ≤ alternatives.length ∧ (alternatives.filterMap Positional.text?).Nodup) ∧
      .empty ∉ clause.subclauses ∧
      (∀ t, .term t ∈ clause.subclauses → t.field = r.field ∧
        ((∃ u ∈ tree.leaves, u.text = t.text) ∨
          t.text = Positional.neverText ∧
            ∃ group ∈ tree.groupsInside, ∀ c ∈ group, c.2 = .mustNot)) := by
  obtain ⟨clause, hclause, hslots, hnormal⟩ : ∃ clause : Positional,
      (r.rewrite tree).clause? = some clause ∧ (∀ slot ∈ clause.slots, slot.nearFree = true) ∧
        clause.IsNormal r.field (ClauseTree.Supplies tree.leaves tree.groupsInside) := by
    cases tree with
    | term t =>
      have ht : t ∈ (ClauseTree.term t).leaves := List.mem_singleton.mpr rfl
      refine ⟨.term t, rfl, by simp [Positional.slots, Positional.sides, Positional.inSequence,
        Positional.nearFree], ?_⟩
      exact Positional.isNormal_term.mpr ⟨hfield t ht, .inl ⟨t, ht, rfl⟩⟩
    | composite children =>
      have hposition : ∀ c ∈ children, (r.position c.1).IsNormal r.field
          (ClauseTree.Supplies (ClauseTree.leavesAll children)
            (ClauseTree.groupsBelow children)) := by
        intro c hc
        refine Rewriter.isNormal_position hfactory c.1 (fun t ht => hfield t ?_)
          fun text => ClauseTree.Supplies.of_mem hc
        rw [ClauseTree.leaves, ClauseTree.leavesAll_eq_flatMap]
        exact List.mem_flatMap.mpr ⟨c, hc, ht⟩
      have hsequence := r.isNormal_sequence hposition fun c _ =>
        Rewriter.nearFree_position hfactory c.1
      exact ⟨r.sequence children, rfl, hsequence.2, hsequence.1⟩
  refine ⟨clause, hclause, hslots, fun _ h => hnormal _ h, fun h => ?_, fun _ h => hnormal _ h⟩
  exact absurd (hnormal _ h).1 (by decide)

/-- In `(a (a) ()) -b` the word of two groups is one alternative, and the empty group another. -/
theorem normal_form_of_nested_groups :
    let a : ClauseTree := .term { field := "body", text := "a" }
    let b : ClauseTree := .term { field := "body", text := "b" }
    let group : ClauseTree :=
      .composite [(a, .should), (.composite [(a, .should)], .should), (.composite [], .should)]
    let tree : ClauseTree := .composite [(group, .should), (b, .mustNot)]
    let r : Rewriter :=
      { field := "body", slop := 0, inOrder := true, factory := Positional.plainTerm }
    (∀ t ∈ tree.leaves, t.field = r.field) ∧
      ∃ clause : Positional, (r.rewrite tree).clause? = some clause ∧
        (∀ slot ∈ clause.slots, slot.nearFree = true) ∧ .empty ∉ clause.subclauses ∧
        (∀ t, .term t ∈ clause.subclauses → t.field = "body" ∧
          (t.text = "a" ∨ t.text = "b" ∨ t.text = Positional.neverText)) := by
  intro a b group tree r
  have hfield : ∀ t ∈ tree.leaves, t.field = r.field := by
    simp [tree, group, a, b, r, ClauseTree.leaves, ClauseTree.leavesAll]
  have hfactory : r.factory = Positional.plainTerm := rfl
  obtain ⟨clause, hclause, hslots, -, hempty, hterms⟩ := rewrite_normal_form hfactory hfield
  refine ⟨hfield, clause, hclause, hslots, hempty, fun t ht => ⟨(hterms t ht).1, ?_⟩⟩
  rcases (hterms t ht).2 with ⟨u, hu, htext⟩ | ⟨hnever, -⟩
  · simp [tree, group, a, b, ClauseTree.leaves, ClauseTree.leavesAll] at hu
    rcases hu with rfl | rfl
    · exact .inl htext.symm
    · exact .inr (.inl htext.symm)
  · exact .inr (.inr hnever)

end ProximityQuery
