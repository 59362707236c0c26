import ProximityQuery.Proofs.Resolution
import ProximityQuery.Proofs.WildcardMatching

/-!
# Widening a pattern

A question mark in the place of a literal, or a star in the place of a run of units, lets a pattern
match more. The one exception is the line feed: no question mark and no star takes it, so a pattern
that spells a line feed is not widened by either.
-/

namespace ProximityQuery

namespace Wildcard

/-- A part of a pattern that does not end within an escape. -/
inductive CompleteUnits : List Char → Prop
  | nil : CompleteUnits []
  | plain {c : Char} {s : List Char} (hc : c ≠ '\\') (rest : CompleteUnits s) :
    CompleteUnits (c :: s)
  | escaped (c : Char) {s : List Char} (rest : CompleteUnits s) : CompleteUnits ('\\' :: c :: s)

/-- A unit that stands for one character: a plain character, or an escaped one. -/
inductive LiteralUnit : List Char → Char → Prop
  | plain {c : Char} (hstar : c ≠ '*') (hquestion : c ≠ '?') (hbackslash : c ≠ '\\') :
    LiteralUnit [c] c
  | escaped (c : Char) : LiteralUnit ['\\', c] c

/-- Whether a pattern matches every text that another one matches. -/
def Widens (wide narrow : List Char) : Prop :=
  ∀ text, isMatch (String.ofList narrow) text = true → isMatch (String.ofList wide) text = true

/-- A pattern is wider when its units take whatever those of the other take. -/
theorem widens_iff_taken {wide narrow : List Char} :
    Widens wide narrow ↔ ∀ text, Taken (pieces narrow) text → Taken (pieces wide) text := by
  constructor
  · intro h text htaken
    have hwide := h (String.ofList text)
    simp only [isMatch_iff_taken, String.toList_ofList] at hwide
    exact hwide htaken
  · intro h text
    simp only [isMatch_iff_taken, String.toList_ofList]
    exact h text.toList

/-- Units that are complete do not run into what follows them. -/
theorem CompleteUnits.pieces_append {s : List Char} (h : CompleteUnits s) (rest : List Char) :
    pieces (s ++ rest) = pieces s ++ pieces rest := by
  induction h with
  | nil => rfl
  | @plain c s hc _ ih =>
    rw [List.cons_append, pieces_cons_of_ne hc, pieces_cons_of_ne hc, ih, List.cons_append]
  | @escaped c s _ ih =>
    have hpieces : ∀ s, pieces ('\\' :: c :: s) = .exactly c :: pieces s := fun _ => rfl
    rw [List.cons_append, List.cons_append, hpieces, hpieces, ih, List.cons_append]

/-- A literal is a complete unit. -/
theorem LiteralUnit.completeUnits {s : List Char} {c : Char} (h : LiteralUnit s c) :
    CompleteUnits s := by
  cases h with
  | plain _ _ hbackslash => exact .plain hbackslash .nil
  | escaped => exact .escaped c .nil

/-- A literal is the unit of its character. -/
theorem LiteralUnit.pieces_eq {s : List Char} {c : Char} (h : LiteralUnit s c) :
    pieces s = [.exactly c] := by
  cases h with
  | plain hstar hquestion hbackslash =>
    rw [pieces_cons_of_ne hbackslash, Piece.ofChar, if_neg hstar, if_neg hquestion, pieces]
  | escaped => rfl

/-- A line feed in a run of units is one of its literals. -/
theorem CompleteUnits.mem_pieces_iff {s : List Char} (h : CompleteUnits s) :
    .exactly '\n' ∈ pieces s ↔ '\n' ∈ s := by
  induction h with
  | nil => simp [pieces]
  | @plain c s hc _ ih =>
    rw [pieces_cons_of_ne hc, List.mem_cons, List.mem_cons, ih]
    by_cases hline : c = '\n'
    · subst hline
      simp [Piece.ofChar]
    · have hother : .exactly '\n' ≠ Piece.ofChar c := by
        rw [Piece.ofChar]
        split
        · simp
        · split
          · simp
          · simpa using Ne.symm hline
      simp [hother, Ne.symm hline]
  | @escaped c s _ ih =>
    have hpieces : pieces ('\\' :: c :: s) = .exactly c :: pieces s := rfl
    rw [hpieces, List.mem_cons, List.mem_cons, List.mem_cons, ih]
    simp

/-- Only the literals of a pattern take line feeds, and each takes one. -/
theorem Taken.count_eq {ps : List Piece} {text : List Char} (h : Taken ps text) :
    text.count '\n' = ps.count (.exactly '\n') := by
  induction h with
  | nil => rfl
  | @cons p ps part text first _ ih =>
    have hpart : part.count '\n' = [p].count (.exactly '\n') := by
      cases first with
      | run hpart => simp [List.count_eq_zero.mpr hpart]
      | any hc => simp [hc]
      | exactly c => by_cases hc : c = '\n' <;> simp [hc]
    rw [List.count_append, ih, hpart, ← List.count_append, List.singleton_append]

/-- Units can always be given what they take. -/
theorem exists_taken (ps : List Piece) : ∃ text, Taken ps text := by
  induction ps with
  | nil => exact ⟨[], .nil⟩
  | cons p ps ih =>
    obtain ⟨text, htext⟩ := ih
    cases p with
    | run => exact ⟨[] ++ text, .cons (.run List.not_mem_nil) htext⟩
    | any => exact ⟨['a'] ++ text, .cons (.any (by decide)) htext⟩
    | exactly c => exact ⟨[c] ++ text, .cons (.exactly c) htext⟩

/-- What the units in the middle take can be taken by others. -/
theorem Taken.exchange {before middle middle' after : List Piece}
    (h : ∀ text, Taken middle text → Taken middle' text) {text : List Char}
    (htaken : Taken (before ++ middle ++ after) text) :
    Taken (before ++ middle' ++ after) text := by
  obtain ⟨front, back, rfl, hfront, hback⟩ := taken_append_iff.mp htaken
  obtain ⟨left, part, rfl, hleft, hpart⟩ := taken_append_iff.mp hfront
  have hfront' : Taken (before ++ middle') (left ++ part) :=
    taken_append_iff.mpr ⟨left, part, rfl, hleft, h part hpart⟩
  exact taken_append_iff.mpr ⟨left ++ part, back, rfl, hfront', hback⟩

/-- Units that spell fewer line feeds match no text that the others match. -/
theorem not_widens_of_count_lt {wide narrow : List Char}
    (h : (pieces wide).count (.exactly '\n') < (pieces narrow).count (.exactly '\n')) :
    ¬ Widens wide narrow := by
  rw [widens_iff_taken]
  intro hwidens
  obtain ⟨text, htext⟩ := exists_taken (pieces narrow)
  have hnarrow := htext.count_eq
  have hwide := (hwidens text htext).count_eq
  omega

theorem taken_run_self_iff {text : List Char} : Taken [.run] text ↔ '\n' ∉ text := by
  rw [taken_run_iff]
  constructor
  · rintro ⟨run, rest, rfl, hrun, hrest⟩
    obtain rfl := taken_nil_iff.mp hrest
    rwa [List.append_nil]
  · intro h
    exact ⟨text, [], (List.append_nil text).symm, h, .nil⟩

section

variable {before : List Char} (hbefore : CompleteUnits before) (after : List Char)

include hbefore

/-- A question mark in the place of a literal lets a pattern match no less, unless the literal is a
line feed. -/
theorem widens_question_iff {unit : List Char} {c : Char} (hunit : LiteralUnit unit c) :
    Widens (before ++ '?' :: after) (before ++ unit ++ after) ↔ c ≠ '\n' := by
  have hwide : pieces (before ++ '?' :: after) = pieces before ++ [.any] ++ pieces after := by
    rw [hbefore.pieces_append, pieces_cons_of_ne (by decide), List.append_assoc]
    rfl
  have hnarrow :
      pieces (before ++ unit ++ after) = pieces before ++ [.exactly c] ++ pieces after := by
    rw [List.append_assoc, hbefore.pieces_append, hunit.completeUnits.pieces_append,
      hunit.pieces_eq, List.append_assoc]
  constructor
  · rintro h rfl
    refine not_widens_of_count_lt ?_ h
    rw [hwide, hnarrow]
    simp
  · intro hc
    rw [widens_iff_taken, hwide, hnarrow]
    refine fun text => Taken.exchange fun part hpart => ?_
    obtain ⟨_, rest, rfl, ⟨⟩, hrest⟩ := taken_cons_iff.mp hpart
    exact .cons (.any hc) hrest

/-- A star in the place of a run of units lets a pattern match no less, unless the run spells a line
feed. -/
theorem widens_star_iff {run : List Char} (hrun : CompleteUnits run) :
    Widens (before ++ '*' :: after) (before ++ run ++ after) ↔ '\n' ∉ run := by
  have hwide : pieces (before ++ '*' :: after) = pieces before ++ [.run] ++ pieces after := by
    rw [hbefore.pieces_append, pieces_cons_of_ne (by decide), List.append_assoc]
    rfl
  have hnarrow : pieces (before ++ run ++ after) = pieces before ++ pieces run ++ pieces after := by
    rw [List.append_assoc, hbefore.pieces_append, hrun.pieces_append, List.append_assoc]
  constructor
  · intro h hline
    have hcount := List.count_pos_iff.mpr (hrun.mem_pieces_iff.mpr hline)
    refine not_widens_of_count_lt ?_ h
    rw [hwide, hnarrow]
    simp only [List.count_append]
    have hstar : [Piece.run].count (.exactly '\n') = 0 := rfl
    omega
  · intro hline
    rw [widens_iff_taken, hwide, hnarrow]
    refine fun text => Taken.exchange fun part hpart => ?_
    have hnone : (pieces run).count (.exactly '\n') = 0 :=
      List.count_eq_zero.mpr fun hmem => hline (hrun.mem_pieces_iff.mp hmem)
    have hpartline : '\n' ∉ part := List.count_eq_zero.mp (hpart.count_eq.trans hnone)
    exact taken_run_self_iff.mpr hpartline

end

/-- A star alone matches the texts without a line feed. -/
theorem isMatch_star_iff {text : String} : isMatch "*" text = true ↔ '\n' ∉ text.toList := by
  rw [isMatch_iff_taken]
  exact taken_run_self_iff

end Wildcard

namespace Dictionary

open Wildcard

/-- A wider pattern stands for the terms of the narrower one, and perhaps for others
between them. -/
theorem selected_sublist_of_widens {wide narrow : List Char} (h : Widens wide narrow)
    (d : Dictionary) (field : String) :
    (d.selected field (.wildcard (String.ofList narrow))).Sublist
      (d.selected field (.wildcard (String.ofList wide))) :=
  List.monotone_filter_right _ h

/-- A star stands for the terms without a line feed. -/
theorem selected_star (d : Dictionary) (field : String) :
    d.selected field (.wildcard "*") = (d.terms field).filter fun t => '\n' ∉ t.toList := by
  refine List.filter_congr fun t _ => ?_
  rw [Bool.eq_iff_iff, decide_eq_true_iff]
  exact isMatch_star_iff

end Dictionary

namespace Wildcard

/-- A literal replaced by a question mark, and a run of complete units replaced by a star, let a
pattern match whatever it matched before, just when they are free of line feeds. A pattern that
matches more loses no term of an expansion, and a star alone, unless it is refused, stands for every
term of a field that is free of line feeds. -/
theorem widening_keeps_matches {before : List Char} (hbefore : CompleteUnits before)
    (after : List Char) (d : Dictionary) (regex : Regex.Compiler) (field : String) :
    (∀ (unit : List Char) (c : Char), LiteralUnit unit c →
      (Widens (before ++ '?' :: after) (before ++ unit ++ after) ↔ c ≠ '\n')) ∧
    (∀ run : List Char, CompleteUnits run →
      (Widens (before ++ '*' :: after) (before ++ run ++ after) ↔ '\n' ∉ run)) ∧
    (∀ wide narrow : List Char, Widens wide narrow →
      ∀ (limit limit' : Nat) (terms terms' : List String),
        d.expand regex field (.wildcard (String.ofList narrow)) limit = .ok terms →
        d.expand regex field (.wildcard (String.ofList wide)) limit' = .ok terms' →
        terms.Sublist terms') ∧
    ∀ limit : Nat, refusal? regex "*" = none →
      let lines := (d.terms field).filter fun t => '\n' ∉ t.toList
      d.expand regex field (.wildcard "*") limit =
        if lines.length ≤ limit then .ok lines else .error (.tooManyExpansions field limit) := by
  refine ⟨fun unit c hunit => ?_, fun run hrun => ?_,
    fun wide narrow h limit limit' terms terms' hnarrow hwide => ?_, fun limit hstar => ?_⟩
  · exact widens_question_iff hbefore after hunit
  · exact widens_star_iff hbefore after hrun
  · rw [Dictionary.eq_selected_of_expand_eq_ok hnarrow,
      Dictionary.eq_selected_of_expand_eq_ok hwide]
    exact d.selected_sublist_of_widens h field
  · have haccepted : (MultiTerm.wildcard "*").refusal? regex = none :=
      Option.map_eq_none_iff.mpr hstar
    rw [Dictionary.expand_eq_of_accepted haccepted, Dictionary.selected_star]

/-- An escaped star in a name is a literal, and two of the units behind it are a run. -/
theorem widening_keeps_matches_of_escaped_star :
    Widens "jo?*n".toList "jo\\**n".toList ∧ Widens "jo*n".toList "jo\\**n".toList ∧
      ∃ terms', (Dictionary.ofTerms "body" ["jo*an", "john"]).expand {} "body"
        (.wildcard "jo?*n") 2 = .ok terms' ∧ ["jo*an"].Sublist terms' := by
  have hjo : CompleteUnits "jo".toList := .plain (by decide) (.plain (by decide) .nil)
  have hrun : CompleteUnits "\\**".toList := .escaped '*' (.plain (by decide) .nil)
  let d := Dictionary.ofTerms "body" ["jo*an", "john"]
  obtain ⟨hquestion, -, hexpand, -⟩ := widening_keeps_matches hjo "*n".toList d {} "body"
  obtain ⟨-, hstar, -, -⟩ := widening_keeps_matches hjo "n".toList d {} "body"
  have hwide : Widens "jo?*n".toList "jo\\**n".toList :=
    (hquestion "\\*".toList '*' (.escaped '*')).mpr (by decide)
  have hwider : Widens "jo*n".toList "jo\\**n".toList := (hstar "\\**".toList hrun).mpr (by decide)
  have hterms : d.expand {} "body" (.wildcard "jo\\**n") 2 = .ok ["jo*an"] := by cbv
  have hterms' : d.expand {} "body" (.wildcard "jo?*n") 2 = .ok ["jo*an", "john"] := by cbv
  exact ⟨hwide, hwider, _, hterms', hexpand _ _ hwide 2 2 _ _ hterms hterms'⟩

/-- A line feed is matched by itself and by nothing else, so neither a question mark nor a star in
its place keeps what the pattern has matched, and a star alone does not stand for every term. -/
theorem widening_loses_line_feed :
    isMatch "one\ntwo" "one\ntwo" = true ∧ isMatch "one?two" "one\ntwo" = false ∧
      isMatch "*" "one\ntwo" = false ∧
      (Dictionary.ofTerms "body" ["one\ntwo"]).expand {} "body" (.wildcard "*") 1024 = .ok [] := by
  refine ⟨by decide +kernel, by decide +kernel, by decide +kernel, by cbv⟩

end Wildcard

end ProximityQuery
