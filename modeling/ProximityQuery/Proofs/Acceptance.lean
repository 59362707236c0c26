import Mathlib.Data.List.Forall2
import ProximityQuery.Proofs.PhraseShape

/-!
# Acceptance

Which tokens a position of a phrase accepts. A group of a phrase becomes one positional clause with
the help of an aggregate that merges repeated terms, unwraps a sole entry and stands in with a term
that no document has; none of this adds or loses a token. Tokens are compared by their text alone, so
the fields of the leaves do not matter here.
-/

namespace ProximityQuery

namespace ClauseTree

mutual

/-- Whether a tree accepts a token: a term its own text, a combination what some child accepts that
is not prohibited, unless a prohibited child accepts it too. -/
def accepts (x : String) : ClauseTree → Bool
  | .term t => t.text = x
  | .composite children => anyAccepts x false children && !anyAccepts x true children

/-- Whether some child accepts a token, among the prohibited ones or among the others. -/
def anyAccepts (x : String) (prohibited : Bool) : List (ClauseTree × Occur) → Bool
  | [] => false
  | (child, occur) :: rest =>
    (occur.isProhibited = prohibited && child.accepts x) || anyAccepts x prohibited rest

end

/-- One of the children of a group accepts a text when some child with the given sign does. -/
theorem anyAccepts_eq_any (x : String) (prohibited : Bool) (children : List (ClauseTree × Occur)) :
    anyAccepts x prohibited children =
      children.any fun c => c.2.isProhibited = prohibited && c.1.accepts x := by
  induction children with
  | nil => rfl
  | cons c rest ih => rw [anyAccepts, ih, List.any_cons]

end ClauseTree

namespace Positional

mutual

/-- Whether a clause at one position accepts a token. Clauses near one another take more than one
position, and accept none. -/
def accepts (x : String) : Positional → Bool
  | .term t => t.text = x
  | .or clauses => anyAccepts x clauses
  | .not included excluded => included.accepts x && !excluded.accepts x
  | .near _ _ _ => false

/-- Whether some of the clauses accepts a token. -/
def anyAccepts (x : String) : List Positional → Bool
  | [] => false
  | clause :: rest => clause.accepts x || anyAccepts x rest

end

mutual

/-- Whether a clause takes one position, having no clauses near one another in it. -/
def nearFree : Positional → Bool
  | .term _ => true
  | .or clauses => allNearFree clauses
  | .not included excluded => included.nearFree && excluded.nearFree
  | .near _ _ _ => false

/-- Whether each of the clauses takes one position. -/
def allNearFree : List Positional → Bool
  | [] => true
  | clause :: rest => clause.nearFree && allNearFree rest

end

/-- One of some clauses accepts a text when there is a clause that does. -/
theorem anyAccepts_eq_any (x : String) (clauses : List Positional) :
    anyAccepts x clauses = clauses.any (accepts x) := by
  induction clauses with
  | nil => rfl
  | cons clause rest ih => rw [anyAccepts, ih, List.any_cons]

/-- Clauses are free of sequences when each of them is. -/
theorem allNearFree_eq_all (clauses : List Positional) :
    allNearFree clauses = clauses.all nearFree := by
  induction clauses with
  | nil => rfl
  | cons clause rest ih => rw [allNearFree, ih, List.all_cons]

/-- A boost does not change what a clause accepts. -/
theorem accepts_setBoost (x : String) (boost : Float32) (clause : Positional) :
    (clause.setBoost boost).accepts x = clause.accepts x := by
  cases clause <;> rfl

/-- A boost brings no sequence into a clause. -/
theorem nearFree_setBoost (boost : Float32) (clause : Positional) :
    (clause.setBoost boost).nearFree = clause.nearFree := by
  cases clause <;> rfl

/-- The never-matching term accepts no other token than its own text. -/
theorem accepts_never {x : String} (hx : x ≠ neverText) (field : String) :
    (never field).accepts x = false := by
  simpa [never, accepts] using hx.symm

/-- The alternation of nothing accepts nothing. -/
theorem accepts_of_isEmpty {clause : Positional} (h : clause.isEmpty = true) (x : String) :
    clause.accepts x = false := by
  unfold isEmpty at h
  split at h
  · rfl
  · cases h

end Positional

namespace Aggregate

variable {W : Type}

/-- Whether some entry of an aggregate accepts a token. -/
def accepts (x : String) (a : Aggregate W) : Bool :=
  a.entries.any fun e => e.1.accepts x

/-- Clauses that count as the same term accept the same tokens. -/
theorem accepts_eq_of_sameTerm {clause other : Positional} (h : sameTerm other clause = true)
    (x : String) : other.accepts x = clause.accepts x := by
  unfold sameTerm at h
  split at h
  next t u =>
    rw [Bool.and_eq_true, decide_eq_true_eq, decide_eq_true_eq] at h
    rw [Positional.accepts, Positional.accepts, h.2]
  · cases h

section

variable [Add W]

/-- An entry that takes a clause in accepts what the clause accepts already. -/
theorem any_accepts_addEntry (x : String) (clause : Positional) (weight : W)
    (entries : List (Positional × W)) :
    ((addEntry clause weight entries).any fun e => e.1.accepts x) =
      (clause.accepts x || entries.any fun e => e.1.accepts x) := by
  induction entries with
  | nil => rfl
  | cons e rest ih =>
    rw [addEntry]
    split
    next hsame =>
      rw [List.any_cons, List.any_cons, ← accepts_eq_of_sameTerm hsame x, ← Bool.or_assoc,
        Bool.or_self]
    next =>
      rw [List.any_cons, List.any_cons, ih, Bool.or_left_comm]

/-- The clauses of the entries are those of before, or the one that was added. -/
theorem forall_mem_addEntry {P : Positional → Prop} {clause : Positional} {weight : W}
    {entries : List (Positional × W)} (hclause : P clause) (h : ∀ e ∈ entries, P e.1) :
    ∀ e ∈ addEntry clause weight entries, P e.1 := by
  induction entries with
  | nil => exact List.forall_mem_singleton.mpr hclause
  | cons e rest ih =>
    obtain ⟨he, hrest⟩ := List.forall_mem_cons.mp h
    rw [addEntry]
    split
    · exact List.forall_mem_cons.mpr ⟨he, hrest⟩
    · exact List.forall_mem_cons.mpr ⟨he, ih hrest⟩

/-- Adding a clause adds the tokens it accepts. -/
theorem accepts_add (x : String) (a : Aggregate W) (clause : Positional) (weight : W) :
    (a.add clause weight).accepts x = (clause.accepts x || a.accepts x) := by
  rw [add]
  split
  next hempty => rw [Positional.accepts_of_isEmpty hempty, Bool.false_or]
  next => exact any_accepts_addEntry x clause weight a.entries

/-- A clause that is added brings no sequence into an aggregate unless it holds one. -/
theorem nearFree_of_mem_add {a : Aggregate W} {clause : Positional} {weight : W}
    (hclause : clause.nearFree = true) (h : ∀ e ∈ a.entries, e.1.nearFree = true) :
    ∀ e ∈ (a.add clause weight).entries, e.1.nearFree = true := by
  rw [add]
  split
  · exact h
  · exact forall_mem_addEntry (P := fun clause => clause.nearFree = true) hclause h

end

/-- An aggregate that holds nothing accepts nothing. -/
theorem accepts_of_count_eq_zero {a : Aggregate W} (h : a.count = 0) (x : String) :
    a.accepts x = false := by
  rw [accepts, List.length_eq_zero_iff.mp h, List.any_nil]

/-- What is built of an aggregate accepts what its entries accept, alone or as alternatives. -/
theorem accepts_build (x : String) (narrow : W → Float32) (a : Aggregate W) :
    (a.build narrow).accepts x = a.accepts x := by
  rcases a.build_cases narrow with ⟨e, hsole, hbuild⟩ | ⟨-, hbuild⟩
  · rw [hbuild, Positional.accepts_setBoost, accepts, hsole, List.any_cons, List.any_nil,
      Bool.or_false]
  · simp only [hbuild, Positional.accepts, Positional.anyAccepts_eq_any, List.any_map,
      Function.comp_def, Positional.accepts_setBoost, accepts]

/-- The clause of an aggregate without sequences has none. -/
theorem nearFree_build {narrow : W → Float32} {a : Aggregate W}
    (h : ∀ e ∈ a.entries, e.1.nearFree = true) : (a.build narrow).nearFree = true := by
  rcases a.build_cases narrow with ⟨e, hsole, hbuild⟩ | ⟨-, hbuild⟩
  · rw [hbuild, Positional.nearFree_setBoost]
    exact h e (hsole ▸ List.mem_cons_self)
  · rw [hbuild, Positional.nearFree, Positional.allNearFree_eq_all, List.all_map, List.all_eq_true]
    intro e he
    rw [Function.comp_apply, Positional.nearFree_setBoost]
    exact h e he

end Aggregate

namespace Rewriter

/-- Adding clauses one after the other adds the tokens of each. -/
theorem accepts_foldl_add (x : String) (ms : List Member) (a : Aggregate Float) :
    (ms.foldl (fun a m => a.add m.1.1 m.1.2) a).accepts x =
      (a.accepts x || ms.any fun m => m.1.1.accepts x) := by
  induction ms generalizing a with
  | nil => rw [List.foldl_nil, List.any_nil, Bool.or_false]
  | cons m rest ih =>
    rw [List.foldl_cons, ih, Aggregate.accepts_add, List.any_cons, Bool.or_comm (m.1.1.accepts x),
      Bool.or_assoc]

/-- What the aggregate of no members has and every addition keeps, the aggregate of the members has. -/
theorem collect_induction (r : Rewriter) {P : Aggregate Float → Prop} {ms : List Member}
    (hnone : P { field := r.field })
    (hadd : ∀ m ∈ ms, ∀ a : Aggregate Float, P a → P (a.add m.1.1 m.1.2)) : P (r.collect ms) :=
  List.foldlRecOn ms _ hnone fun a ha m hm => hadd m hm a ha

/-- The members of a group that pass a test accept together what each of them accepts. -/
theorem accepts_collect (x : String) (r : Rewriter) (passes : Member → Bool) (ms : List Member) :
    (r.collect (ms.filter passes)).accepts x = ms.any fun m => passes m && m.1.1.accepts x := by
  rw [collect, accepts_foldl_add, List.any_filter, Aggregate.accepts, List.any_nil, Bool.false_or]

/-- Collecting members without sequences brings none in. -/
theorem nearFree_collect (r : Rewriter) {ms : List Member} (h : ∀ m ∈ ms, m.1.1.nearFree = true)
    (passes : Member → Bool) :
    ∀ e ∈ (r.collect (ms.filter passes)).entries, e.1.nearFree = true :=
  r.collect_induction (P := fun a => ∀ e ∈ a.entries, e.1.nearFree = true) (by simp)
    fun m hm _ ha => Aggregate.nearFree_of_mem_add (h m (List.mem_of_mem_filter hm)) ha

/-- The never-matching term accepts as little as the empty aggregate it stands in for. -/
theorem accepts_allowance {x : String} (hx : x ≠ Positional.neverText) (r : Rewriter)
    (included : Aggregate Float) : (r.allowance included).accepts x = included.accepts x := by
  unfold allowance
  split
  next hcount =>
    rw [Positional.accepts_never hx, Aggregate.accepts_of_count_eq_zero hcount]
  next => exact Aggregate.accepts_build x _ included

/-- What a group allows holds no sequence, and neither does the never-matching term in its place. -/
theorem nearFree_allowance (r : Rewriter) {included : Aggregate Float}
    (h : ∀ e ∈ included.entries, e.1.nearFree = true) : (r.allowance included).nearFree = true := by
  unfold allowance
  split
  · rfl
  · exact Aggregate.nearFree_build h

/-- A group accepts what some member accepts that is not prohibited, unless a prohibited member
accepts it too. -/
theorem accepts_combine {x : String} (hx : x ≠ Positional.neverText) (r : Rewriter)
    (ms : List Member) :
    (r.combine ms).accepts x =
      ((ms.any fun m => !m.2.isProhibited && m.1.1.accepts x) &&
        !ms.any fun m => m.2.isProhibited && m.1.1.accepts x) := by
  rw [← accepts_collect x r (fun m => !m.2.isProhibited),
    ← accepts_collect x r (fun m => m.2.isProhibited)]
  unfold combine
  dsimp only
  split
  next hcount =>
    rw [accepts_allowance hx, Aggregate.accepts_of_count_eq_zero hcount, Bool.not_false,
      Bool.and_true]
  next => rw [Positional.accepts, accepts_allowance hx, Aggregate.accepts_build]

/-- A group takes one position when its members do. -/
theorem nearFree_combine (r : Rewriter) {ms : List Member}
    (h : ∀ m ∈ ms, m.1.1.nearFree = true) : (r.combine ms).nearFree = true := by
  have hallowed := nearFree_allowance r (nearFree_collect r h fun m => !m.2.isProhibited)
  unfold combine
  dsimp only
  split
  · exact hallowed
  · rw [Positional.nearFree, hallowed, Aggregate.nearFree_build (nearFree_collect r h _)]
    rfl

/-- The group of the children accepts what their combination accepts, given that for each child. -/
theorem accepts_combine_members {r : Rewriter} {x : String} (hx : x ≠ Positional.neverText)
    {children : List (ClauseTree × Occur)}
    (h : ∀ c ∈ children, (r.member c.1).1.accepts x = c.1.accepts x) :
    (r.combine (r.members children)).accepts x = (ClauseTree.composite children).accepts x := by
  have hany : ∀ prohibited : Bool,
      (children.any fun c => c.2.isProhibited = prohibited && (r.member c.1).1.accepts x) =
        ClauseTree.anyAccepts x prohibited children := by
    intro prohibited
    rw [ClauseTree.anyAccepts_eq_any, Bool.eq_iff_iff, List.any_eq_true, List.any_eq_true]
    exact exists_congr fun c => and_congr_right fun hc => by rw [h c hc]
  rw [accepts_combine hx, members_eq_map, List.any_map, List.any_map, ClauseTree.accepts, ← hany,
    ← hany]
  simp [Function.comp_def]

section

variable {r : Rewriter} (hr : r.factory = Positional.plainTerm)

include hr

/-- A member of a group accepts what its tree accepts. -/
theorem accepts_member {x : String} (hx : x ≠ Positional.neverText) (tree : ClauseTree) :
    (r.member tree).1.accepts x = tree.accepts x := by
  induction tree with
  | term t =>
    rw [member, hr]
    rfl
  | composite children ih => exact accepts_combine_members hx ih

/-- A member of a group takes one position, so its clause holds no sequence. -/
theorem nearFree_member (tree : ClauseTree) : (r.member tree).1.nearFree = true := by
  induction tree with
  | term t =>
    rw [member, hr]
    rfl
  | composite children ih =>
    rw [member]
    refine nearFree_combine r ?_
    rw [members_eq_map]
    exact List.forall_mem_map.mpr ih

/-- The position of a clause at the top accepts what its tree accepts. -/
theorem accepts_position {x : String} (hx : x ≠ Positional.neverText) (tree : ClauseTree) :
    (r.position tree).accepts x = tree.accepts x := by
  cases tree with
  | term t =>
    rw [position, hr, Positional.accepts_setBoost]
    rfl
  | composite children => exact accepts_member hr hx (.composite children)

/-- A position at the top of a phrase holds no sequence either. -/
theorem nearFree_position (tree : ClauseTree) : (r.position tree).nearFree = true := by
  cases tree with
  | term t =>
    rw [position, hr, Positional.nearFree_setBoost]
    rfl
  | composite children => exact nearFree_member hr (.composite children)

end

/-- The sequence of the clauses at the top has the position of each as a slot, in their order. -/
theorem exists_sequence_eq (r : Rewriter) (children : List (ClauseTree × Occur)) :
    ∃ included, r.sequence children =
      if children.any fun c => c.2.isProhibited then
        .not included (.near (children.map fun c => r.position c.1) r.slop r.inOrder)
      else .near (children.map fun c => r.position c.1) r.slop r.inOrder := by
  obtain ⟨included, -, hsequence⟩ := r.exists_included children
  exact ⟨included, hsequence⟩

end Rewriter

/-- Rewriting a phrase keeps the meaning of its positions. There is one slot for every clause at the
top, in their order; no slot takes more than one position, and whatever the nesting each accepts the
tokens that its clause accepts, the text of the never-matching term apart. -/
theorem rewrite_accepts (field : String) (slop : UInt32) (inOrder : Bool)
    (children : List (ClauseTree × Occur)) :
    ∃ slots included,
      List.Forall₂ (fun c slot => Positional.nearFree slot = true ∧
        ∀ x, x ≠ Positional.neverText → slot.accepts x = ClauseTree.accepts x c.1) children slots ∧
      Rewriter.rewrite { field, slop, inOrder, factory := Positional.plainTerm }
          (.composite children) =
        .positional (if children.any fun c => c.2.isProhibited
          then .not included (.near slots slop inOrder) else .near slots slop inOrder) := by
  obtain ⟨included, hsequence⟩ := Rewriter.exists_sequence_eq
    { field, slop, inOrder, factory := Positional.plainTerm } children
  refine ⟨_, included, ?_, congrArg Query.positional hsequence⟩
  rw [List.forall₂_map_right_iff, List.forall₂_same]
  exact fun c _ => ⟨Rewriter.nearFree_position rfl c.1, fun x hx =>
    Rewriter.accepts_position rfl hx c.1⟩

/-- The group in `john (smith -jones) -()` accepts one name and not the other, and the empty group
keeps its slot and accepts neither. -/
theorem rewrite_accepts_of_nested_exclusion :
    ∃ john group nothing included,
      Rewriter.rewrite
          { field := "body", slop := 0, inOrder := true, factory := Positional.plainTerm }
          (.composite [(.term { field := "body", text := "john" }, .should),
            (.composite [(.term { field := "body", text := "smith" }, .should),
              (.term { field := "body", text := "jones" }, .mustNot)], .should),
            (.composite [], .mustNot)]) =
        .positional (.not included (.near [john, group, nothing] 0 true)) ∧
      Positional.accepts "smith" group = true ∧ Positional.accepts "jones" group = false ∧
      Positional.accepts "smith" nothing = false := by
  obtain ⟨slots, included, hslots, hrewrite⟩ := rewrite_accepts "body" 0 true
    [(.term { field := "body", text := "john" }, .should),
      (.composite [(.term { field := "body", text := "smith" }, .should),
        (.term { field := "body", text := "jones" }, .mustNot)], .should),
      (.composite [], .mustNot)]
  obtain ⟨john, _, -, hrest, rfl⟩ := List.forall₂_cons_left_iff.mp hslots
  obtain ⟨group, _, hgroup, hlast, rfl⟩ := List.forall₂_cons_left_iff.mp hrest
  obtain ⟨nothing, _, hnothing, hnil, rfl⟩ := List.forall₂_cons_left_iff.mp hlast
  obtain rfl := List.forall₂_nil_left_iff.mp hnil
  have hsmith : "smith" ≠ Positional.neverText := by decide
  have hjones : "jones" ≠ Positional.neverText := by decide
  refine ⟨john, group, nothing, included, hrewrite, ?_, ?_, ?_⟩
  · exact (hgroup.2 "smith" hsmith).trans (by decide)
  · exact (hgroup.2 "jones" hjones).trans (by decide)
  · exact (hnothing.2 "smith" hsmith).trans (by decide)

end ProximityQuery
