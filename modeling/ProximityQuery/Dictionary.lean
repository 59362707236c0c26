/-!
# Term dictionaries

For each field, the distinct terms that are indexed, in ascending order of their code points (which
is the order of their bytes in UTF-8). Both the terms of a field and the fields themselves are kept
strictly ascending, so no term and no field occurs twice. A field may be known and have no terms.
-/

namespace ProximityQuery

/-- The terms of a field, strictly ascending. -/
structure TermSet where
  toList : List String
  ascending : toList.Pairwise (· < ·)

namespace TermSet

/-- No terms. -/
def empty : TermSet := ⟨[], .nil⟩

/-- Puts a term at its place in an ascending list, unless it is there. -/
def insertInto (t : String) : List String → List String
  | [] => [t]
  | u :: rest => if t < u then t :: u :: rest else if t = u then u :: rest else u :: insertInto t rest

/-- A term that is inserted is there, and nothing else comes or goes. -/
theorem mem_insertInto {t u : String} {l : List String} : u ∈ insertInto t l ↔ u = t ∨ u ∈ l := by
  induction l with
  | nil => simp [insertInto]
  | cons v rest ih => grind [insertInto]

/-- The new term goes before the first greater one, so the list stays strictly ascending. -/
theorem ascending_insertInto (t : String) {l : List String} (h : l.Pairwise (· < ·)) :
    (insertInto t l).Pairwise (· < ·) := by
  induction l with
  | nil => simp [insertInto]
  | cons u rest ih =>
    obtain ⟨hu, hrest⟩ := List.pairwise_cons.1 h
    unfold insertInto
    split
    next htu =>
      refine List.pairwise_cons.2 ⟨fun v hv => ?_, h⟩
      rcases List.mem_cons.1 hv with rfl | hv
      · exact htu
      · exact String.lt_trans htu (hu v hv)
    next htu =>
      split
      · exact h
      next hne =>
        refine List.pairwise_cons.2 ⟨fun v hv => ?_, ih hrest⟩
        rcases mem_insertInto.1 hv with rfl | hv
        · exact Std.lt_of_le_of_ne (String.not_lt.1 htu) (fun e => hne e.symm)
        · exact hu v hv

/-- Adds a term. -/
def insert (s : TermSet) (t : String) : TermSet :=
  ⟨insertInto t s.toList, ascending_insertInto t s.ascending⟩

/-- The distinct members of a list. -/
def ofList (terms : List String) : TermSet :=
  terms.foldl insert empty

/-- A set of terms has the term that was added to it, and the terms it had. -/
theorem mem_insert {s : TermSet} {t u : String} : u ∈ (s.insert t).toList ↔ u = t ∨ u ∈ s.toList :=
  mem_insertInto

end TermSet

/-- The terms of every field, the fields strictly ascending. -/
structure Dictionary where
  fields : List (String × TermSet)
  ascending : (fields.map Prod.fst).Pairwise (· < ·)

namespace Dictionary

/-- A dictionary without fields. -/
def empty : Dictionary := ⟨[], .nil⟩

/-- Changes the terms of a field, which is put at its place if it is not known. -/
def alterIn (field : String) (change : TermSet → TermSet) :
    List (String × TermSet) → List (String × TermSet)
  | [] => [(field, change .empty)]
  | (g, terms) :: rest =>
    if field < g then (field, change .empty) :: (g, terms) :: rest
    else if field = g then (g, change terms) :: rest
    else (g, terms) :: alterIn field change rest

/-- A field whose terms are changed is known from then on, and no other field comes or goes. -/
theorem mem_fields_alterIn {field g : String} {change : TermSet → TermSet}
    {l : List (String × TermSet)} :
    g ∈ (alterIn field change l).map Prod.fst ↔ g = field ∨ g ∈ l.map Prod.fst := by
  induction l with
  | nil => simp [alterIn]
  | cons entry rest ih => grind [alterIn]

/-- A field that was not known goes before the first greater one, so the fields stay strictly
ascending. -/
theorem ascending_alterIn (field : String) (change : TermSet → TermSet)
    {l : List (String × TermSet)} (h : (l.map Prod.fst).Pairwise (· < ·)) :
    ((alterIn field change l).map Prod.fst).Pairwise (· < ·) := by
  induction l with
  | nil => simp [alterIn]
  | cons entry rest ih =>
    obtain ⟨g, terms⟩ := entry
    obtain ⟨hg, hrest⟩ := List.pairwise_cons.1 h
    unfold alterIn
    split
    next hlt =>
      refine List.pairwise_cons.2 ⟨fun v hv => ?_, h⟩
      rcases List.mem_cons.1 hv with rfl | hv
      · exact hlt
      · exact String.lt_trans hlt (hg v hv)
    next hlt =>
      split
      · exact h
      next hne =>
        refine List.pairwise_cons.2 ⟨fun v hv => ?_, ih hrest⟩
        rcases mem_fields_alterIn.1 hv with rfl | hv
        · exact Std.lt_of_le_of_ne (String.not_lt.1 hlt) (fun e => hne e.symm)
        · exact hg v hv

/-- Changes the terms of a field. -/
def alter (d : Dictionary) (field : String) (change : TermSet → TermSet) : Dictionary :=
  ⟨alterIn field change d.fields, ascending_alterIn field change d.ascending⟩

/-- Adds a term to a field. -/
def insert (d : Dictionary) (field term : String) : Dictionary :=
  d.alter field (·.insert term)

/-- Gives a field new terms in place of those it had. -/
def put (d : Dictionary) (field : String) (terms : TermSet) : Dictionary :=
  d.alter field fun _ => terms

/-- A dictionary with the given terms of one field, and without that field when there are none. -/
def ofTerms (field : String) (terms : List String) : Dictionary :=
  terms.foldl (·.insert field) empty

/-- The terms of a field in ascending order; an unknown field has none. -/
def terms (d : Dictionary) (field : String) : List String :=
  ((d.fields.lookup field).map TermSet.toList).getD []

/-- The number of terms over all fields. -/
def size (d : Dictionary) : Nat :=
  d.fields.foldr (fun entry n => entry.2.toList.length + n) 0

/-- Whether no field has a term. -/
def isEmpty (d : Dictionary) : Bool :=
  d.size = 0

end Dictionary

end ProximityQuery
