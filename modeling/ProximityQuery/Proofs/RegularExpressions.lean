import Mathlib
import ProximityQuery.Wildcard.Expression

/-!
# Regular expressions

What is documented of a package of regular expressions, for expressions that are a sequence of a few
elements: the marks for the start and the end of a text, a dot, a dot with a star, and escaped
characters. An expression matches a text if it fits at some place of it. A plain search from the
left is such a package.
-/

namespace ProximityQuery.Regex

/-- An element of an expression. -/
inductive Element
  /-- The start of the text. -/
  | start
  /-- The end of the text. -/
  | finish
  /-- Any one character but a line feed. -/
  | dot
  /-- Any run of characters without a line feed. -/
  | dots
  /-- This character, escaped. -/
  | literal (c : Char)
deriving DecidableEq, Repr

/-- Whether a sequence of elements fits at a place of a text, between what is before the place and
what is behind it. The elements take the text behind the place piece by piece, as much of it as they
need. -/
inductive FitsAt : List Element → (before behind : List Char) → Prop
  | nil (before behind : List Char) : FitsAt [] before behind
  | start {es : List Element} {behind : List Char} (rest : FitsAt es [] behind) :
    FitsAt (.start :: es) [] behind
  | finish {es : List Element} {before : List Char} (rest : FitsAt es before []) :
    FitsAt (.finish :: es) before []
  | dot {es : List Element} {before behind : List Char} {c : Char} (hc : c ≠ '\n')
    (rest : FitsAt es (before ++ [c]) behind) : FitsAt (.dot :: es) before (c :: behind)
  | dots {es : List Element} {before run behind : List Char} (hrun : '\n' ∉ run)
    (rest : FitsAt es (before ++ run) behind) : FitsAt (.dots :: es) before (run ++ behind)
  | literal {es : List Element} {before behind : List Char} {c : Char}
    (rest : FitsAt es (before ++ [c]) behind) : FitsAt (.literal c :: es) before (c :: behind)

/-- A package of regular expressions, which also tells whether it finds a match of an expression in a
text. -/
structure Package extends Compiler where
  isMatch : (expression text : String) → Bool

/-- An element as it is written. -/
def Element.text (escape : Char → String) : Element → List Char
  | .start => ['^']
  | .finish => ['$']
  | .dot => ['.']
  | .dots => ['.', '*']
  | .literal c => (escape c).toList

/-- A sequence of elements matches a text when it fits at some place of it. -/
def Package.Documented (r : Package) : Prop :=
  ∀ (es : List Element) (text : String),
    r.isMatch (String.ofList (es.flatMap (Element.text r.escape))) text = true ↔
      ∃ before behind, text.toList = before ++ behind ∧ FitsAt es before behind

section

variable {es : List Element} {before behind : List Char} {c : Char}

/-- The mark for the start fits where nothing is before the place. -/
theorem fitsAt_start_iff :
    FitsAt (.start :: es) before behind ↔ before = [] ∧ FitsAt es before behind := by
  constructor
  · rintro ⟨⟩
    exact ⟨rfl, ‹_›⟩
  · rintro ⟨rfl, h⟩
    exact .start h

/-- The mark for the end fits where nothing is behind the place. -/
theorem fitsAt_finish_iff :
    FitsAt (.finish :: es) before behind ↔ behind = [] ∧ FitsAt es before behind := by
  constructor
  · rintro ⟨⟩
    exact ⟨rfl, ‹_›⟩
  · rintro ⟨rfl, h⟩
    exact .finish h

/-- A dot takes the next character, unless that is a line feed. -/
theorem fitsAt_dot_cons_iff :
    FitsAt (.dot :: es) before (c :: behind) ↔ c ≠ '\n' ∧ FitsAt es (before ++ [c]) behind := by
  constructor
  · rintro ⟨⟩
    exact ⟨‹_›, ‹_›⟩
  · rintro ⟨hc, h⟩
    exact .dot hc h

/-- An escaped character takes itself. -/
theorem fitsAt_literal_cons_iff {d : Char} :
    FitsAt (.literal d :: es) before (c :: behind) ↔ c = d ∧ FitsAt es (before ++ [c]) behind := by
  constructor
  · rintro ⟨⟩
    exact ⟨rfl, ‹_›⟩
  · rintro ⟨rfl, h⟩
    exact .literal h

/-- There is no character for a dot at the end of the text. -/
theorem not_fitsAt_dot_nil : ¬ FitsAt (.dot :: es) before [] := by
  rintro ⟨⟩

/-- Nor is there one for an escaped character. -/
theorem not_fitsAt_literal_nil {d : Char} : ¬ FitsAt (.literal d :: es) before [] := by
  rintro ⟨⟩

/-- A dot with a star takes a run of characters without a line feed. -/
theorem fitsAt_dots_iff :
    FitsAt (.dots :: es) before behind ↔
      ∃ run rest, behind = run ++ rest ∧ '\n' ∉ run ∧ FitsAt es (before ++ run) rest := by
  constructor
  · rintro ⟨⟩
    exact ⟨_, _, rfl, ‹_›, ‹_›⟩
  · rintro ⟨run, rest, rfl, hrun, h⟩
    exact .dots hrun h

/-- A run without line feeds at the beginning of a text is empty, or it takes the first character
and goes on behind it. -/
theorem exists_run_cons_iff {P : List Char → List Char → Prop} {text : List Char} :
    (∃ run rest, c :: text = run ++ rest ∧ '\n' ∉ run ∧ P run rest) ↔
      P [] (c :: text) ∨
        c ≠ '\n' ∧ ∃ run rest, text = run ++ rest ∧ '\n' ∉ run ∧ P (c :: run) rest := by
  constructor
  · rintro ⟨run, rest, htext, hrun, h⟩
    cases run with
    | nil =>
      rw [List.nil_append] at htext
      exact .inl (htext ▸ h)
    | cons d run =>
      obtain ⟨rfl, rfl⟩ := List.cons.inj htext
      obtain ⟨hc, hrun⟩ := List.ne_and_not_mem_of_not_mem_cons hrun
      exact .inr ⟨hc.symm, run, rest, rfl, hrun, h⟩
  · rintro (h | ⟨hc, run, rest, rfl, hrun, h⟩)
    · exact ⟨[], c :: text, rfl, List.not_mem_nil, h⟩
    · have hmore : '\n' ∉ c :: run := List.not_mem_cons_of_ne_of_not_mem hc.symm hrun
      exact ⟨c :: run, rest, rfl, hmore, h⟩

/-- A dot with a star takes nothing, or it takes a character and then goes on. -/
theorem fitsAt_dots_cons_iff :
    FitsAt (.dots :: es) before (c :: behind) ↔
      FitsAt es before (c :: behind) ∨ c ≠ '\n' ∧ FitsAt (.dots :: es) (before ++ [c]) behind := by
  have hsplit : ∀ run, before ++ [c] ++ run = before ++ c :: run := fun run =>
    List.append_assoc before [c] run
  rw [fitsAt_dots_iff, fitsAt_dots_iff, exists_run_cons_iff, List.append_nil]
  simp only [hsplit]

end

/-- Whether elements fit at a place of a text. -/
def fitsAt : List Element → (before behind : List Char) → Bool
  | [], _, _ => true
  | .start :: es, before, behind => before.isEmpty && fitsAt es before behind
  | .finish :: es, before, behind => behind.isEmpty && fitsAt es before behind
  | .dot :: es, before, c :: behind => c ≠ '\n' && fitsAt es (before ++ [c]) behind
  | .literal d :: es, before, c :: behind => c = d && fitsAt es (before ++ [c]) behind
  | .dots :: es, before, c :: behind =>
    fitsAt es before (c :: behind) || (c ≠ '\n' && fitsAt (.dots :: es) (before ++ [c]) behind)
  | .dots :: es, before, [] => fitsAt es before []
  | .dot :: _, _, [] => false
  | .literal _ :: _, _, [] => false
termination_by es _ behind => (es.length, behind.length)

/-- The decision procedure tells whether elements fit. -/
theorem fitsAt_iff (es : List Element) (before behind : List Char) :
    fitsAt es before behind = true ↔ FitsAt es before behind := by
  fun_induction fitsAt es before behind with
  | case1 before behind => simp [FitsAt.nil]
  | case2 es before behind ih => simp [fitsAt_start_iff, ih]
  | case3 es before behind ih => simp [fitsAt_finish_iff, ih]
  | case4 es before c behind ih => simp [fitsAt_dot_cons_iff, ih]
  | case5 d es before c behind ih => simp [fitsAt_literal_cons_iff, ih]
  | case6 es before c behind ihnone ihmore => simp [fitsAt_dots_cons_iff, ihnone, ihmore]
  | case7 es before ih => simp [fitsAt_dots_iff, ih]
  | case8 => simp [not_fitsAt_dot_nil]
  | case9 => simp [not_fitsAt_literal_nil]

/-- Looks for a place of a text where elements fit, from the left. -/
def search (es : List Element) : (before behind : List Char) → Bool
  | before, [] => fitsAt es before []
  | before, c :: behind => fitsAt es before (c :: behind) || search es (before ++ [c]) behind

/-- A search finds a place just when there is one. -/
theorem search_iff (es : List Element) (before behind : List Char) :
    search es before behind = true ↔
      ∃ passed rest, behind = passed ++ rest ∧ FitsAt es (before ++ passed) rest := by
  induction behind generalizing before with
  | nil => simp [search, fitsAt_iff]
  | cons c behind ih =>
    simp only [search, Bool.or_eq_true, fitsAt_iff, ih]
    constructor
    · rintro (h | ⟨passed, rest, rfl, h⟩)
      · exact ⟨[], c :: behind, rfl, by simpa using h⟩
      · exact ⟨c :: passed, rest, rfl, by simpa using h⟩
    · rintro ⟨passed, rest, hbehind, h⟩
      cases passed with
      | nil =>
        rw [List.nil_append] at hbehind
        exact .inl (by simpa [hbehind] using h)
      | cons d passed =>
        obtain ⟨rfl, rfl⟩ := List.cons.inj hbehind
        exact .inr ⟨passed, rest, rfl, by simpa using h⟩

/-- The elements of an expression as it is written. -/
def readElements : List Char → List Element
  | [] => []
  | '^' :: s => .start :: readElements s
  | '$' :: s => .finish :: readElements s
  | '.' :: '*' :: s => .dots :: readElements s
  | '.' :: s => .dot :: readElements s
  | '\\' :: c :: s => .literal c :: readElements s
  | c :: s => .literal c :: readElements s

/-- A character that is escaped is read as itself. -/
theorem readElements_escape (c : Char) (s : List Char) :
    readElements ((escape c).toList ++ s) = .literal c :: readElements s := by
  rw [escape, String.toList_ofList]
  split
  next => simp [readElements]
  next hplain =>
    rw [List.singleton_append, readElements]
    -- every other way to read `c` is for a character that needs a backslash
    all_goals
      intros
      subst_vars
      simp [isMeta] at hplain

/-- No element is written with a star at its beginning, so that a dot is not read as a dot with a
star. -/
theorem flatMap_text_ne_star (es : List Element) (s : List Char) :
    es.flatMap (Element.text escape) ≠ '*' :: s := by
  cases es with
  | nil => simp
  | cons e es =>
    cases e with
    | literal c =>
      by_cases hc : isMeta c
      · simp [Element.text, escape, hc]
      · have hne : c ≠ '*' := by
          rintro rfl
          simp [isMeta] at hc
        simp [Element.text, escape, hc, hne]
    | _ => simp [Element.text]

/-- Elements are read as they were written. -/
theorem readElements_flatMap_text (es : List Element) :
    readElements (es.flatMap (Element.text escape)) = es := by
  induction es with
  | nil => rfl
  | cons e es ih =>
    rw [List.flatMap_cons]
    cases e with
    | start => simp [Element.text, readElements, ih]
    | finish => simp [Element.text, readElements, ih]
    | dot =>
      rw [Element.text, List.singleton_append, readElements, ih]
      exact fun s => flatMap_text_ne_star es s
    | dots => simp [Element.text, readElements, ih]
    | literal c => rw [Element.text, readElements_escape, ih]

/-- The package that searches from the left. -/
def searching : Package where
  isMatch expression text := search (readElements expression.toList) [] text.toList

/-- A plain search from the left does what is documented. -/
theorem searching_documented : searching.Documented := by
  intro es text
  have hread : readElements (String.ofList (es.flatMap (Element.text escape))).toList = es := by
    rw [String.toList_ofList, readElements_flatMap_text]
  have hsearch := search_iff es [] text.toList
  rw [← hread] at hsearch
  simpa [searching, readElements_flatMap_text] using hsearch

end ProximityQuery.Regex
