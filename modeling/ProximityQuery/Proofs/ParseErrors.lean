import Mathlib
import ProximityQuery.Proofs.Resolution
import ProximityQuery.Proofs.Scanning
import ProximityQuery.Proofs.Substitution

/-!
# Errors of parsing

A query is only refused for its text, for the field of a clause in a phrase or for the number of
terms a construct stands for, or else because the expression of a pattern is not compiled. The text of a captured phrase has its quotes escaped, so the second
reading, whose clauses never start inside an escape, finds no phrase in it; and once every anchor is
resolved every placeholder has a tree to be replaced by.
-/

namespace ProximityQuery

open Grammar

/-- A text in which every backslash stands before a character of its own, and every other character
is not a quote. -/
inductive Paired : List Char → Prop
  | nil : Paired []
  | plain {c : Char} {s : List Char} (hc : isPlain c = true) (hs : Paired s) : Paired (c :: s)
  | escaped {c : Char} {s : List Char} (hs : Paired s) : Paired ('\\' :: c :: s)

/-- The text between two quotes is paired. -/
theorem paired_of_readQuoted {s raw rest : List Char} (h : readQuoted s = some (raw, rest)) :
    Paired raw := by
  fun_induction readQuoted s generalizing raw with
  | case1 => cases h
  | case2 s =>
    injection h with h
    injection h with hraw _
    exact hraw ▸ .nil
  | case3 => cases h
  | case4 c s _ ih =>
    obtain ⟨⟨raw', rest'⟩, hread, hpair⟩ := Option.map_eq_some_iff.mp h
    injection hpair with hraw hrest
    subst hraw hrest
    exact .escaped (ih hread)
  | case5 c s hquote hslash ih =>
    obtain ⟨⟨raw', rest'⟩, hread, hpair⟩ := Option.map_eq_some_iff.mp h
    injection hpair with hraw hrest
    subst hraw hrest
    exact .plain (by simp [isPlain, hslash, hquote]) (ih hread)

/-- A bound may end inside an escape, but only before a character that is plain by itself. -/
theorem Paired.dropWhile_isBareBound {s : List Char} (h : Paired s) :
    Paired (s.dropWhile isBareBound) := by
  induction h with
  | nil => exact .nil
  | plain hc hs ih =>
    rw [List.dropWhile_cons]
    split
    · exact ih
    · exact .plain hc hs
  | @escaped c s hs ih =>
    -- the bound takes the backslash and may stop before the character it escapes
    have hslash : isBareBound '\\' = true := rfl
    rw [List.dropWhile_cons, if_pos hslash, List.dropWhile_cons]
    split
    · exact ih
    next hbare =>
      have hbound : (!isBareBound c) = true := by simpa using hbare
      exact .plain (isPlain_of_mem (p := fun c => !isBareBound c) rfl rfl hbound) hs

/-- A paired text does not begin with a quote. -/
theorem Paired.not_quote {s : List Char} : ¬ Paired ('"' :: s) := by
  rintro (_ | ⟨hquote, _⟩)
  cases hquote

/-- Whatever is left unread, a phrase found there has a paired raw text. -/
theorem scanInvariant_anywhere : ScanInvariant (fun _ => True) Paired where
  nil := trivial
  plain _ _ := trivial
  escaped _ := trivial
  bareBound _ := trivial
  quotedBound _ _ := trivial
  phrase _ h := ⟨paired_of_readQuoted h, trivial⟩

/-- The scanners leave a paired text paired, and find no phrase in it. -/
theorem scanInvariant_paired : ScanInvariant Paired fun _ => False where
  nil := .nil
  plain := by
    rintro c s hc (_ | ⟨_, hs⟩ | hs)
    · exact hs
    · cases hc
  escaped := by
    rintro c s (_ | ⟨hslash, _⟩ | hs)
    · cases hslash
    · exact hs
  bareBound := Paired.dropWhile_isBareBound
  quotedBound h _ := absurd h Paired.not_quote
  phrase h _ := absurd h Paired.not_quote

namespace Expression

/-- A phrase that is found in any text has a paired raw text. -/
theorem paired_of_phrase_mem_callsOfText {d : Dialect} {field text g raw : String} {slop : UInt32}
    (h : .phrase g raw slop ∈ callsOfText d field text) : Paired raw.toList :=
  admitted_of_mem_callsOfText scanInvariant_anywhere d field trivial _ h

/-- No phrase is found in a paired text. -/
theorem isPhrase_of_mem_callsOfText {text : String} (h : Paired text.toList) (d : Dialect)
    (field : String) : ∀ call ∈ callsOfText d field text, call.isPhrase = false := by
  intro call hcall
  have hadmitted := admitted_of_mem_callsOfText scanInvariant_paired d field h call hcall
  cases call with
  | phrase g raw slop => exact absurd hadmitted id
  | term g text => rfl
  | multiTerm g which => rfl
  | boolean clauses => rfl
  | boost clause factor => rfl

/-- Every anchor of an expression is one of its phrases. -/
theorem exists_phrase_of_mem_anchors {e : Expression} {inOrder : Bool} {a : Anchor}
    (h : a ∈ e.anchors inOrder) : .phrase a.field a.rawText a.slop ∈ e.calls := by
  obtain ⟨call, hcall, hanchor⟩ := List.mem_filterMap.mp h
  cases call with
  | phrase g raw slop =>
    injection hanchor with hanchor
    exact hanchor ▸ hcall
  | term g text => cases hanchor
  | multiTerm g which => cases hanchor
  | boolean clauses => cases hanchor
  | boost clause factor => cases hanchor

end Expression

/-- An error that only the text, the field of a clause or the number of terms is to blame for. -/
def QueryError.BlamesQuery : QueryError → Prop
  | .malformed _ | .fieldMismatch _ _ | .tooManyExpansions _ _ => True
  | .unsupportedClause _ | .notPositional _ | .invalidPattern _ _ => False

/-- The report of a pattern that is refused, with the reason that the package gives. -/
def QueryError.ReportsRefusal (regex : Regex.Compiler) : QueryError → Prop
  | .invalidPattern pattern message => Wildcard.refusal? regex pattern = some message
  | .malformed _ | .fieldMismatch _ _ | .tooManyExpansions _ _ | .unsupportedClause _
  | .notPositional _ => False

open Expression

/-- A call that is no phrase can only be about another field, stand for too many terms or be a
pattern that is refused. -/
theorem blame_of_offence {call : Expression} {regex : Regex.Compiler} {anchorField : String}
    {dictionary : Dictionary} {limit : Nat} {error : QueryError} (hcall : call.isPhrase = false)
    (h : call.offence regex anchorField dictionary limit = some error) :
    error.BlamesQuery ∨ error.ReportsRefusal regex := by
  cases call with
  | term g text =>
    rw [offence] at h
    split at h
    · cases h
    · injection h with h
      exact h ▸ .inl trivial
  | multiTerm g which =>
    rcases offence_multiTerm_eq_some h with ⟨-, rfl⟩ | ⟨-, hrefusal⟩ | ⟨-, -, -, rfl⟩
    · exact .inl trivial
    · obtain ⟨pattern, message, -, hrefused, rfl⟩ := MultiTerm.refusal?_eq_some_iff.mp hrefusal
      exact .inr hrefused
    · exact .inl trivial
  | phrase g raw slop => cases hcall
  | boolean clauses => cases h
  | boost clause factor => cases h

namespace Parser

variable {p : Parser}

/-- An anchor with a paired raw text is refused for nothing else. -/
theorem blame_of_treeOf {a : Anchor} {error : QueryError} (ha : Paired a.rawText.toList)
    (h : p.treeOf a = .error error) : error.BlamesQuery ∨ error.ReportsRefusal p.regex := by
  rcases (p.treeOf_eq_error_iff a error).mp h with
    ⟨before, call, after, hcalls, -, hoffence⟩ | ⟨-, m, -, rfl⟩
  · have hcall : call ∈ callsOfText p.config.dialect a.field a.rawText := by
      rw [hcalls]
      exact List.mem_append_right _ List.mem_cons_self
    exact blame_of_offence (isPhrase_of_mem_callsOfText ha _ _ call hcall) hoffence
  · exact .inl trivial

/-- Capture fails for the text alone. -/
theorem blamesQuery_of_capture {text : String} {error : QueryError}
    (h : p.capture text = .error error) : error.BlamesQuery := by
  rw [capture, capture_eq] at h
  split at h
  · injection h with h
    exact h ▸ trivial
  · cases h

/-- The raw text of a captured phrase is paired. -/
theorem paired_of_capture {text : String} {query : Query} {anchors : AnchorQueue}
    (h : p.capture text = .ok (query, anchors)) :
    ∀ a ∈ anchors.toList, Paired a.rawText.toList := by
  obtain ⟨e, he, -, rfl⟩ := capture_eq_ok_iff.mp h
  intro a ha
  have hphrase := exists_phrase_of_mem_anchors ha
  rw [← callsOfText_eq_calls he] at hphrase
  exact paired_of_phrase_mem_callsOfText hphrase

/-- Resolving a queue fails for one of its anchors. -/
theorem exists_of_resolve_error {anchors resolved : AnchorQueue} {error : QueryError}
    (h : p.resolve anchors = (.error error, resolved)) :
    ∃ a ∈ anchors.toList, p.treeOf a = .error error := by
  rcases hall : Anchor.resolveAll p.treeOf anchors.toList with ⟨outcome, others⟩
  rw [resolve, hall] at h
  obtain ⟨rfl, -⟩ := Prod.mk.inj h
  obtain ⟨a, ha, -, htree⟩ := Anchor.exists_of_resolveAll_error hall
  exact ⟨a, ha, htree⟩

/-- Once the captured anchors are resolved, every placeholder of the captured query has a tree. -/
theorem exists_phraseQuery_of_resolve {text : String} {query : Query}
    {anchors resolved : AnchorQueue} {n : Nat} (hcapture : p.capture text = .ok (query, anchors))
    (hresolve : p.resolve anchors = (.ok n, resolved)) :
    ∀ id ∈ query.placeholders, ∃ result, p.phraseQuery resolved id = .ok result := by
  obtain ⟨e, -, rfl, rfl⟩ := capture_eq_ok_iff.mp hcapture
  rcases hall : Anchor.resolveAll p.treeOf (e.anchors p.config.inOrder) with ⟨outcome, others⟩
  rw [resolve, hall] at hresolve
  obtain ⟨rfl, rfl⟩ := Prod.mk.inj hresolve
  obtain ⟨hlength, hget⟩ := List.forall₂_iff_get.mp (Anchor.forall₂_of_resolveAll_ok hall)
  intro id hid
  rw [placeholders_query, List.mem_range'_1, Nat.zero_add] at hid
  have hleft : id < (e.anchors p.config.inOrder).length := by
    rw [anchors, length_filterMap_anchor?]
    exact hid.2
  have hright : id < others.length := hlength ▸ hleft
  obtain ⟨tree, hb, -⟩ := hget id hleft hright
  have hfound : AnchorQueue.get? ⟨others⟩ id = some (others.get ⟨id, hright⟩) :=
    List.getElem?_eq_getElem hright
  rw [phraseQuery, hfound, hb]
  exact ⟨_, rfl⟩

/-- Once the captured anchors are resolved, substitution succeeds. -/
theorem exists_substitute_of_resolve {text : String} {query : Query}
    {anchors resolved : AnchorQueue} {n : Nat} (hcapture : p.capture text = .ok (query, anchors))
    (hresolve : p.resolve anchors = (.ok n, resolved)) :
    ∃ result, p.substitute resolved query = .ok result := by
  have hnonempty : Nonempty Query := ⟨query⟩
  choose! put hput using exists_phraseQuery_of_resolve hcapture hresolve
  exact ⟨query.replace put, substitute_eq_ok hput⟩

end Parser

/-- Parsing fails only for the text, for the field of a clause in a phrase or for the number of
terms a construct stands for, unless the package of regular expressions refuses a pattern and the
error reports that. No phrase is found inside a captured phrase, no captured phrase is refused for a
clause of an unsupported kind, and once all of them are resolved the placeholders are replaced
without an error. -/
theorem parse_errors (p : Parser) (text : String) :
    (∀ error, p.parse text = .error error →
      error.BlamesQuery ∨ error.ReportsRefusal p.regex) ∧
    ∀ query anchors, p.capture text = .ok (query, anchors) →
      (∀ a ∈ anchors.toList, ∀ call ∈ callsOfText p.config.dialect a.field a.rawText,
        call.isPhrase = false) ∧
      (∀ a ∈ anchors.toList, ∀ what, p.treeOf a ≠ .error (.unsupportedClause what)) ∧
      ∀ n resolved, p.resolve anchors = (.ok n, resolved) →
        ∃ result, p.substitute resolved query = .ok result := by
  constructor
  · intro error herror
    rw [Parser.parse] at herror
    cases hcapture : p.capture text with
    | error first =>
      rw [hcapture] at herror
      injection herror with herror
      exact herror ▸ .inl (Parser.blamesQuery_of_capture hcapture)
    | ok captured =>
      obtain ⟨query, anchors⟩ := captured
      rw [hcapture, ok_bind] at herror
      dsimp only at herror
      split at herror
      next first resolved hresolve =>
        injection herror with herror
        obtain ⟨a, ha, htree⟩ := Parser.exists_of_resolve_error hresolve
        exact herror ▸ Parser.blame_of_treeOf (Parser.paired_of_capture hcapture a ha) htree
      next n resolved hresolve =>
        obtain ⟨result, hresult⟩ := Parser.exists_substitute_of_resolve hcapture hresolve
        rw [hresult] at herror
        cases herror
  · intro query anchors hcapture
    have hpaired := Parser.paired_of_capture hcapture
    refine ⟨fun a ha => ?_, fun a ha what htree => ?_, fun n resolved hresolve => ?_⟩
    · exact isPhrase_of_mem_callsOfText (hpaired a ha) _ _
    · exact (Parser.blame_of_treeOf (hpaired a ha) htree).elim id id
    · exact Parser.exists_substitute_of_resolve hcapture hresolve

/-- A phrase with escaped quotes is captured, resolved and replaced, and a phrase with a word of
another field is refused for that field. -/
theorem parse_errors_of_escaped_quotes :
    (∃ error, ({} : Parser).parse "\"title:john\"" = .error error ∧ error.BlamesQuery) ∧
    ∃ query anchors resolved,
      ({} : Parser).capture "\"say \\\"hi\\\"\"" = .ok (query, anchors) ∧
      ({} : Parser).resolve anchors = (.ok 1, resolved) ∧
      ∃ result, ({} : Parser).substitute resolved query = .ok result := by
  constructor
  · have herror : ({} : Parser).parse "\"title:john\"" =
        .error (.fieldMismatch "title" "body") := by
      cbv
    have hblame := (parse_errors _ _).1 _ herror
    exact ⟨_, herror, hblame.resolve_right id⟩
  · have hcapture : ({} : Parser).capture "\"say \\\"hi\\\"\"" = .ok (.phrase 0,
        ⟨[{ field := "body", rawText := "say \\\"hi\\\"", slop := 0, inOrder := true }]⟩) := by
      cbv
    have hresolve : ({} : Parser).resolve
        ⟨[{ field := "body", rawText := "say \\\"hi\\\"", slop := 0, inOrder := true }]⟩ =
        (.ok 1, ⟨[{
          field := "body", rawText := "say \\\"hi\\\"", slop := 0, inOrder := true,
          resolved := some (.composite [(.term { field := "body", text := "say" }, .should),
            (.term { field := "body", text := "\"hi\"" }, .should)]) }]⟩) := by
      cbv
    exact ⟨_, _, _, hcapture, hresolve,
      ((parse_errors _ _).2 _ _ hcapture).2.2 _ _ hresolve⟩

end ProximityQuery
