import ProximityQuery.Proofs.ByteOrder
import ProximityQuery.Proofs.EditTable
import ProximityQuery.Proofs.Influence
import ProximityQuery.Proofs.WildcardMatching

/-!
# Exact expansions

After any run of insertions a field has the terms that were inserted for it. A construct is expanded
to those of them that it stands for, each once and in the order of their bytes, or the expansion is
refused as a whole, because they are more than the limit or because a pattern is not compiled.
-/

namespace ProximityQuery

namespace Dictionary

section

variable {field g : String} {change : TermSet → TermSet} {l : List (String × TermSet)}

/-- The terms of another field stay as they are. -/
theorem lookup_alterIn_of_ne (h : g ≠ field) :
    (alterIn field change l).lookup g = l.lookup g := by
  have hbeq : (g == field) = false := beq_eq_false_iff_ne.mpr h
  induction l with
  | nil => simp [alterIn, List.lookup_cons, hbeq]
  | cons entry rest ih =>
    obtain ⟨known, terms⟩ := entry
    rw [alterIn]
    split
    · rw [List.lookup_cons, hbeq]
    · split
      next hsame =>
        subst hsame
        rw [List.lookup_cons, List.lookup_cons, hbeq]
      next => rw [List.lookup_cons, List.lookup_cons, ih]

/-- A field that is not known is changed as one without terms. Its place in the order tells that it
is not known. -/
theorem lookup_alterIn_self (h : (l.map Prod.fst).Pairwise (· < ·)) :
    (alterIn field change l).lookup field = some (change ((l.lookup field).getD .empty)) := by
  induction l with
  | nil => simp [alterIn]
  | cons entry rest ih =>
    obtain ⟨known, terms⟩ := entry
    obtain ⟨hknown, hrest⟩ := List.pairwise_cons.mp h
    rw [alterIn]
    split
    next hbefore =>
      have hnew : ((known, terms) :: rest).lookup field = none := by
        rw [List.lookup_eq_none_iff]
        intro entry hentry
        have hlt : field < entry.1 := by
          rcases List.mem_cons.mp hentry with rfl | hentry
          · exact hbefore
          · exact hbefore.trans (hknown _ (List.mem_map_of_mem hentry))
        simpa using hlt.ne
      rw [hnew, List.lookup_cons, beq_self_eq_true]
      rfl
    next =>
      split
      next hsame =>
        subst hsame
        rw [List.lookup_cons, List.lookup_cons, beq_self_eq_true]
        rfl
      next hne =>
        have hbeq : (field == known) = false := beq_eq_false_iff_ne.mpr hne
        rw [List.lookup_cons, List.lookup_cons, hbeq]
        exact ih hrest

end

/-- A term that is inserted for a field is there, and nothing else comes or goes in any field. -/
theorem mem_terms_insert {d : Dictionary} {field term g t : String} :
    t ∈ (d.insert field term).terms g ↔ (g, t) = (field, term) ∨ t ∈ d.terms g := by
  rw [insert, alter, terms, terms, Prod.mk.injEq]
  by_cases hg : g = field
  · subst hg
    rw [lookup_alterIn_self d.ascending]
    cases hlookup : d.fields.lookup g with
    | none => simp [TermSet.mem_insert, TermSet.empty]
    | some known => simp [TermSet.mem_insert]
  · simp [lookup_alterIn_of_ne hg, hg]

/-- The dictionary after some terms have been inserted, each for its field. -/
def afterInsertions (insertions : List (String × String)) : Dictionary :=
  insertions.foldl (fun d i => d.insert i.1 i.2) empty

/-- After a run of insertions a field has the terms inserted for it and no other. -/
theorem mem_terms_afterInsertions {insertions : List (String × String)} {field t : String} :
    t ∈ (afterInsertions insertions).terms field ↔ (field, t) ∈ insertions := by
  have hrun : ∀ d : Dictionary, t ∈ (insertions.foldl (fun d i => d.insert i.1 i.2) d).terms field ↔
      (field, t) ∈ insertions ∨ t ∈ d.terms field := by
    induction insertions with
    | nil => simp
    | cons i rest ih =>
      intro d
      rw [List.foldl_cons, ih, mem_terms_insert, List.mem_cons]
      tauto
  have hnone : t ∉ empty.terms field := List.not_mem_nil
  rw [afterInsertions, hrun, or_iff_left hnone]

end Dictionary

/-- Whether a construct stands for a term: its pattern matches it, few enough edits of its text lead
to it, or its bytes lie in the interval. -/
def MultiTerm.StandsFor : MultiTerm → String → Prop
  | .wildcard pattern, t => Wildcard.Matches pattern.toList t.toList
  | .fuzzy text maxEdits, t => ∃ n ≤ maxEdits.toNat, Edits n text.toList t.toList
  | .range i, t =>
    (∀ lower ∈ i.lower, if i.includesLower then utf8 lower ≤ utf8 t else utf8 lower < utf8 t) ∧
      ∀ upper ∈ i.upper, if i.includesUpper then utf8 t ≤ utf8 upper else utf8 t < utf8 upper

/-- The order of the texts against the bounds is that of their bytes. -/
theorem Interval.contains_iff {i : Interval} {t : String} :
    i.contains t = true ↔ (MultiTerm.range i).StandsFor t := by
  obtain ⟨lower, upper, includesLower, includesUpper⟩ := i
  cases lower <;> cases upper <;> cases includesLower <;> cases includesUpper <;>
    simp [contains, reachesLower, staysBelowUpper, MultiTerm.StandsFor, utf8_lt_iff, utf8_le_iff]

/-- The program selects a term just when the construct stands for it. -/
theorem MultiTerm.selects_iff {which : MultiTerm} {t : String} :
    which.selects t = true ↔ which.StandsFor t := by
  cases which with
  | wildcard pattern => exact Wildcard.isMatch_iff_taken.trans Wildcard.matches_iff_taken.symm
  | fuzzy text maxEdits =>
    rw [selects, decide_eq_true_iff]
    exact editDistance_le_iff
  | range i => exact Interval.contains_iff

namespace Dictionary

section

variable (insertions : List (String × String)) (field : String) (which : MultiTerm)

/-- The distinct terms inserted for a field that a construct stands for. -/
def wanted : Set String :=
  {t | (field, t) ∈ insertions ∧ which.StandsFor t}

variable {insertions field which}

/-- What is selected after the insertions is what was inserted and is stood for. -/
theorem mem_selected_iff_mem_wanted {t : String} :
    t ∈ (afterInsertions insertions).selected field which ↔ t ∈ wanted insertions field which := by
  rw [selected, List.mem_filter, mem_terms_afterInsertions, MultiTerm.selects_iff]
  rfl

/-- The terms that are selected come in the order of their bytes. -/
theorem ascending_selected (d : Dictionary) (field : String) (which : MultiTerm) :
    (d.selected field which).Pairwise fun s t => utf8 s < utf8 t := by
  have hterms := (d.ascending_terms field).filter which.selects
  exact hterms.imp fun h => utf8_lt_iff.mpr h

/-- The terms in question are as many as are selected, as none of them is selected twice. -/
theorem encard_wanted :
    (wanted insertions field which).encard =
      ((afterInsertions insertions).selected field which).length := by
  have hdistinct : ((afterInsertions insertions).selected field which).Nodup :=
    ((ascending_terms _ field).filter which.selects).nodup
  have hwanted : wanted insertions field which =
      ((afterInsertions insertions).selected field which).toFinset := by
    ext t
    rw [List.coe_toFinset, Set.mem_ofPred_eq, mem_selected_iff_mem_wanted]
  rw [hwanted, Set.encard_coe_eq_coe_finsetCard, List.toFinset_card_of_nodup hdistinct]

end

/-- After any run of insertions, a construct that is not refused and whose terms are at most the
limit is expanded to them, each once and in the order of their bytes, and one whose terms are more is
refused for the limit, with nothing listed. A construct without terms is never refused for the limit,
and a field for which nothing was inserted has no terms. A construct that is refused, which only a
pattern is, is refused for every field and under every limit. -/
theorem expand_afterInsertions (insertions : List (String × String)) (regex : Regex.Compiler)
    (field : String) (which : MultiTerm) (limit : Nat) :
    (which.refusal? regex = none →
      ((wanted insertions field which).encard ≤ limit →
        ∃ terms, (afterInsertions insertions).expand regex field which limit = .ok terms ∧
          terms.Pairwise (fun s t => utf8 s < utf8 t) ∧
          ∀ t, t ∈ terms ↔ t ∈ wanted insertions field which) ∧
      (limit < (wanted insertions field which).encard →
        (afterInsertions insertions).expand regex field which limit =
          .error (.tooManyExpansions field limit)) ∧
      (wanted insertions field which = ∅ →
        (afterInsertions insertions).expand regex field which limit = .ok [])) ∧
    ((∀ t, (field, t) ∉ insertions) → (afterInsertions insertions).terms field = []) ∧
    ∀ error, which.refusal? regex = some error →
      (afterInsertions insertions).expand regex field which limit = .error error ∧
        ∃ pattern message, which = .wildcard pattern ∧
          Wildcard.refusal? regex pattern = some message ∧
          error = .invalidPattern pattern message := by
  refine ⟨fun haccepted => ?_, fun hnever => ?_, fun error hrefused => ?_⟩
  · rw [encard_wanted, Nat.cast_le, Nat.cast_lt, expand_eq_of_accepted haccepted]
    refine ⟨fun hfew => ?_, fun hmany => ?_, fun hnone => ?_⟩
    · rw [if_pos hfew]
      exact ⟨_, rfl, ascending_selected _ field which, fun t => mem_selected_iff_mem_wanted⟩
    · rw [if_neg (Nat.not_le_of_lt hmany)]
    · have hselected : (afterInsertions insertions).selected field which = [] := by
        refine List.eq_nil_iff_forall_not_mem.mpr fun t ht => ?_
        have hwanted := mem_selected_iff_mem_wanted.mp ht
        rw [hnone] at hwanted
        exact hwanted
      have hfits : ([] : List String).length ≤ limit := Nat.zero_le limit
      rw [hselected, if_pos hfits]
  · refine List.eq_nil_iff_forall_not_mem.mpr fun t ht => ?_
    exact hnever t (mem_terms_afterInsertions.mp ht)
  · exact ⟨expand_eq_of_refused hrefused, MultiTerm.refusal?_eq_some_iff.mp hrefused⟩

/-- Of four insertions two are for the same term and one for another field, so that two terms are
left: as many as a limit of two allows, and too many for a limit of one. A package that compiles no
expression of more than four characters refuses a pattern of three, for a field without terms and
under a limit of none. -/
theorem expand_afterInsertions_at_limit :
    let insertions := [("body", "b"), ("title", "a"), ("body", "é"), ("body", "b")]
    let half := MultiTerm.range ⟨some "b", none, true, true⟩
    let short : Regex.Compiler :=
      { refusal? := fun expression => if 4 < expression.length then some "too long" else none }
    (∃ terms, (afterInsertions insertions).expand short "body" half 2 = .ok terms ∧
      ∀ t, t ∈ terms ↔ t = "b" ∨ t = "é") ∧
    (afterInsertions insertions).expand short "body" half 1 =
      .error (.tooManyExpansions "body" 1) ∧
    (afterInsertions insertions).expand short "page" (.wildcard "b?d") 0 =
      .error (.invalidPattern "b?d" "too long") := by
  intro insertions half short
  have hwanted : wanted insertions "body" half = {"b", "é"} := by
    ext t
    constructor
    · rintro ⟨hmem, -⟩
      simpa [insertions, or_comm] using hmem
    · rintro (rfl | rfl)
      · exact ⟨by decide, MultiTerm.selects_iff.mp (by decide +kernel)⟩
      · exact ⟨by decide, MultiTerm.selects_iff.mp (by decide +kernel)⟩
  have hcard : (wanted insertions "body" half).encard = 2 := by
    rw [hwanted]
    exact Set.encard_pair (by decide)
  have hrefused : (MultiTerm.wildcard "b?d").refusal? short =
      some (.invalidPattern "b?d" "too long") := by
    cbv
  obtain ⟨hfew, -, -⟩ := (expand_afterInsertions insertions short "body" half 2).1 rfl
  obtain ⟨-, hmany, -⟩ := (expand_afterInsertions insertions short "body" half 1).1 rfl
  obtain ⟨-, -, hrefuses⟩ := expand_afterInsertions insertions short "page" (.wildcard "b?d") 0
  obtain ⟨terms, hexpand, -, hmem⟩ := hfew (by rw [hcard]; rfl)
  refine ⟨⟨terms, hexpand, fun t => ?_⟩, hmany (by rw [hcard]; decide), (hrefuses _ hrefused).1⟩
  rw [hmem, hwanted]
  rfl

end Dictionary

end ProximityQuery
