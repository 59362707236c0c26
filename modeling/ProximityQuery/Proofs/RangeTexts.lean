import ProximityQuery.Proofs.ContinuedLevel
import ProximityQuery.Proofs.Influence

/-!
# Range texts

A range as it can be written: names of fields with a colon behind each, then in its brackets the two
bounds around `TO`, each a text in quotes or a star, with blanks where they may stand. Every such
text is a range about the innermost field. Whatever is in the quotes of a bound is the bound, with
one exception: which side is open is decided by the text alone once the quotes are gone, so a lone
star in quotes opens its side as the star without quotes does.
-/

namespace ProximityQuery

open Grammar

/-- The name of a field as it is written before a colon: a word without wildcards. -/
structure FieldName where
  letters : List Letter
  ne_nil : letters ≠ []
  readable : ∀ l ∈ letters, l.isReadable = true
  plain : letters.any Letter.isWild = false

namespace FieldName

def text (n : FieldName) : List Char :=
  n.letters.flatMap Letter.written

/-- The field that is meant. -/
def name (n : FieldName) : String :=
  String.ofList (n.letters.map Letter.char)

/-- Names with a colon behind each. -/
def pathText (path : List FieldName) : List Char :=
  path.flatMap fun n => n.text ++ [':']

/-- The field behind some names: that of the last, the given one when there are none. -/
def fieldBehind (field : String) (path : List FieldName) : String :=
  path.foldl (fun _ n => n.name) field

/-- The outermost name of a path is written first. -/
theorem pathText_cons_append (n : FieldName) (path : List FieldName) (value : List Char) :
    pathText (n :: path) ++ value = n.text ++ ':' :: (pathText path ++ value) := by
  simp [pathText]

/-- A value behind a path of names is still a value. -/
theorem lacksValue_path (path : List FieldName) {value : List Char}
    (h : lacksValue value = false) : lacksValue (pathText path ++ value) = false := by
  cases path with
  | nil => exact h
  | cons n path =>
    rw [pathText_cons_append]
    exact lacksValue_written n.ne_nil n.readable _

/-- Every name opens a level, and the last one is that of the clause behind them. -/
theorem readPrimary_path (d : Dialect) {levels : Nat} (field : String) {path : List FieldName}
    (hfits : path.length ≤ levels) {value : List Char} (hvalue : lacksValue value = false) :
    readPrimary Expression.builder d levels field (pathText path ++ value) =
      readPrimary Expression.builder d (levels - path.length) (fieldBehind field path) value := by
  induction path generalizing levels field with
  | nil => rfl
  | cons n path ih =>
    cases levels with
    | zero => cases hfits
    | succ levels =>
      have hrest := ih n.name (Nat.le_of_succ_le_succ hfits)
      have hname := readPrimary_written d levels field n.ne_nil n.readable n.plain
        (lacksValue_path path hvalue)
      rw [pathText_cons_append, text, hname, ← name, hrest, List.length_cons, Nat.succ_sub_succ]
      rfl

end FieldName

/-- What is read as a sign or as a conjunction, whatever stands behind it. -/
def signs : List (List Char) :=
  [['+'], ['-'], ['!'], ['&', '&'], ['|', '|']]

/-- A clause with nothing before it: no sign, conjunction or blank can be read at its head. -/
structure StartsBare (s : List Char) : Prop where
  item : StartsItem s
  conjunction : readConjunction s = (none, s)
  modifier : readModifier s = (none, s)

/-- An interval starts with its bracket. -/
theorem startsBare_bracket (includes : Bool) (s : List Char) :
    StartsBare (openBracket includes :: s) := by
  cases includes with
  | true => exact ⟨⟨_, _, rfl, by decide⟩, rfl, rfl⟩
  | false => exact ⟨⟨_, _, rfl, by decide⟩, rfl, rfl⟩

/-- A keyword stands alone, so it is not read at the head of a name. -/
theorem keyword?_name (n : FieldName) (value word : List Char)
    (hword : ∀ l ∈ word.map Letter.plain, l.isReadable = true) :
    keyword? word (n.text ++ ':' :: value) = none := by
  rw [keyword?, Option.filter_eq_none_iff]
  intro rest hafter hfree
  have hshape := eq_append_of_after? hafter
  have hwritten : (word.map Letter.plain).flatMap Letter.written = word := by
    rw [List.flatMap_map]
    exact List.flatMap_singleton' word
  have hends : ∀ c ∈ rest.head?, endsWord c = true := by
    intro c hc
    obtain ⟨s, rfl⟩ := List.head?_eq_some_iff.mp hc
    simp only [freesKeyword, Bool.or_eq_true, decide_eq_true_eq] at hfree
    rcases hfree with (hblank | rfl) | rfl
    · simp [endsWord, hblank]
    · rfl
    · rfl
  have hname := readWord_written n.readable (endsWord_cons (c := ':') rfl value)
  have hkeyword := readWord_written hword hends
  rw [hwritten, ← hshape] at hkeyword
  obtain ⟨-, rfl⟩ := Prod.mk.inj (hkeyword.symm.trans hname)
  cases hfree

/-- What a name with its colon starts with, the name itself starts with. -/
theorem prefix_text {n : FieldName} {s value : List Char} (hcolon : ':' ∉ s)
    (h : s <+: n.text ++ ':' :: value) : s <+: n.text := by
  have hname : n.text ++ [':'] <+: n.text ++ ':' :: value :=
    ⟨value, by rw [List.append_assoc, List.singleton_append]⟩
  have hlast : ':' ∈ n.text ++ [':'] := List.mem_append_right _ (List.mem_singleton_self ':')
  rcases List.prefix_or_prefix_of_prefix h hname with hshort | hlong
  · rcases List.prefix_concat_iff.mp hshort with rfl | hinside
    · exact absurd hlast hcolon
    · exact hinside
  · exact absurd (hlong.subset hlast) hcolon

/-- A name that starts with no sign does not either with its colon behind it. -/
theorem ne_sign_append {n : FieldName} (h : ∀ sign ∈ signs, ¬ sign <+: n.text)
    (value sign : List Char) (hsign : sign ∈ signs) (rest : List Char) :
    n.text ++ ':' :: value ≠ sign ++ rest := by
  intro heq
  have hcolon : ∀ sign ∈ signs, ':' ∉ sign := by decide
  exact h sign hsign (prefix_text (hcolon sign hsign) ⟨rest, heq.symm⟩)

/-- The name of a field may start a clause of a level. -/
theorem startsItem_name (n : FieldName) (value : List Char) :
    StartsItem (n.text ++ ':' :: value) := by
  obtain ⟨letters, hletters, hreadable, -⟩ := n
  cases letters with
  | nil => exact absurd rfl hletters
  | cons l letters =>
    cases l with
    | escaped c => exact ⟨'\\', _, rfl, by decide⟩
    | plain c =>
      have hc := hreadable _ List.mem_cons_self
      simp only [Letter.isReadable, Bool.and_eq_true, Bool.not_eq_true', endsWord,
        Bool.or_eq_false_iff] at hc
      refine ⟨c, _, rfl, hc.2.1, ?_⟩
      rintro rfl
      cases hc.2.2

/-- A name starts a clause, unless a sign can be read at its head. -/
theorem startsBare_name {n : FieldName} (h : ∀ sign ∈ signs, ¬ sign <+: n.text)
    (value : List Char) : StartsBare (n.text ++ ':' :: value) where
  item := startsItem_name n value
  conjunction := by
    have hand := keyword?_name n value ['A', 'N', 'D'] (by decide)
    have hor := keyword?_name n value ['O', 'R'] (by decide)
    have hands := ne_sign_append h value ['&', '&'] (by decide)
    have hors := ne_sign_append h value ['|', '|'] (by decide)
    rw [readConjunction_word hands hors, hand, hor]
  modifier := by
    have hnot := keyword?_name n value ['N', 'O', 'T'] (by decide)
    have hplus := ne_sign_append h value ['+'] (by decide)
    have hminus := ne_sign_append h value ['-'] (by decide)
    have hbang := ne_sign_append h value ['!'] (by decide)
    rw [readModifier_word hplus hminus hbang, hnot]

/-- A text that is one clause with nothing before it is the expression of that clause. -/
theorem StartsBare.ofText? {d : Dialect} {field : String} {s : List Char} {e : Expression}
    (h : StartsBare s)
    (hread : readPrimary Expression.builder d nestingLimit field s = pure (e, [])) :
    Expression.ofText? d field (String.ofList s) = .ok e := by
  obtain ⟨⟨c, t, rfl, hblank, hclose⟩, hconjunction, hmodifier⟩ := h
  have hskip := skipBlanks_cons_of_not_blank hblank t
  have hitem : readItem Expression.builder (readPrimary Expression.builder d nestingLimit) field
      (c :: t) =
        pure ({ mark := { conjunction := none, modifier := none }, clause := e }, []) := by
    simp only [readItem, hconjunction, hskip, hmodifier, hread]
    rfl
  have hend : endsLevel (c :: t) = false := by simpa [endsLevel] using hclose
  have hitems : readItems Expression.builder (readPrimary Expression.builder d nestingLimit) field
      (c :: t).length (c :: t) =
        pure ([{ mark := { conjunction := none, modifier := none }, clause := e }], []) := by
    rw [List.length_cons]
    simp only [readItems, hskip, hend, hitem, pure_bind, readItems_nil, Bool.false_eq_true,
      if_false]
  rw [Expression.ofText?_eq_ok_iff, String.toList_ofList, readWhole, readLevel_builder, hitems,
    pure_bind, levelOf_bare _ rfl]
  rfl

/-- A text that can stand in quotes as a bound. -/
structure IsQuotable (text : String) : Prop where
  ne_empty : text ≠ ""
  no_quote : '"' ∉ text.toList

/-- Blanks, or nothing. -/
abbrev Gap := { s : List Char // ∀ c ∈ s, isBlank c = true }

/-- A range as it is written. -/
structure RangeText where
  path : List FieldName
  /-- The bounds, those that are there being in quotes, and whether each side includes its bound. -/
  interval : Interval
  afterOpen : Gap
  beforeTo : Gap
  afterTo : Gap
  beforeClose : Gap
  fits : path.length ≤ nestingLimit
  unsigned : ∀ n ∈ path.head?, ∀ sign ∈ signs, ¬ sign <+: n.text
  lower_quotable : ∀ text ∈ interval.lower, IsQuotable text
  upper_quotable : ∀ text ∈ interval.upper, IsQuotable text
  /-- A star goes on up to a blank, and `TO` stands alone. -/
  lower_ends : interval.lower = none → beforeTo.val ≠ []
  upper_starts : interval.upper = none → afterTo.val ≠ []

namespace RangeText

variable (r : RangeText)

/-- What stands behind `TO`. -/
def behindTo : List Char :=
  r.afterTo.val ++ (boundText r.interval.upper ++
    (r.beforeClose.val ++ [closeBracket r.interval.includesUpper]))

/-- What stands behind the opening bracket. -/
def inside : List Char :=
  r.afterOpen.val ++ (boundText r.interval.lower ++ (r.beforeTo.val ++ (['T', 'O'] ++ r.behindTo)))

def chars : List Char :=
  FieldName.pathText r.path ++ openBracket r.interval.includesLower :: r.inside

def text : String :=
  String.ofList r.chars

/-- The interval that is read: a bound that is a lone star leaves its side open. -/
def readAs : Interval :=
  { r.interval with
    lower := r.interval.lower.filter (· ≠ "*")
    upper := r.interval.upper.filter (· ≠ "*") }

end RangeText

/-- Blanks before a text that starts with none are skipped. -/
theorem skipBlanks_gap (g : Gap) {s : List Char} (h : skipBlanks s = s) :
    skipBlanks (g.val ++ s) = s := by
  rw [skipBlanks, List.dropWhile_append_of_pos g.property]
  exact h

/-- A bound is read from its quotes, and is an open side when it is a lone star. -/
theorem readBound_boundText_of_quotable {bound : Option String}
    (h : ∀ text ∈ bound, IsQuotable text) {rest : List Char}
    (hrest : bound = none → ∀ c ∈ rest.head?, isBareBound c = false) :
    readBound (boundText bound ++ rest) = .ok (bound.filter (· ≠ "*"), rest) := by
  cases bound with
  | none => exact readBound_star (hrest rfl)
  | some text =>
    obtain ⟨hempty, hquote⟩ := h text rfl
    rw [readBound_inQuotes hempty hquote, boundOf]
    by_cases hstar : text = "*"
    · rw [hstar]
      rfl
    · have hlone : text.toList ≠ ['*'] := fun e => hstar (String.toList_injective e)
      rw [if_neg hlone, String.ofList_toList, Option.filter_some_pos (by simpa using hstar)]

/-- A blank ends a bound without quotes. -/
theorem isBareBound_gap {g : Gap} (h : g.val ≠ []) (s : List Char) :
    ∀ c ∈ (g.val ++ s).head?, isBareBound c = false := by
  obtain ⟨blanks, hblanks⟩ := g
  cases blanks with
  | nil => exact absurd rfl h
  | cons b blanks =>
    intro c hc
    obtain rfl := Option.some.inj hc
    simp [isBareBound, hblanks b List.mem_cons_self]

/-- So does a closing bracket. -/
theorem isBareBound_close (g : Gap) (includes : Bool) :
    ∀ c ∈ (g.val ++ [closeBracket includes]).head?, isBareBound c = false := by
  by_cases hgap : g.val = []
  · intro c hc
    rw [hgap] at hc
    obtain rfl := Option.some.inj hc
    cases includes <;> rfl
  · exact isBareBound_gap hgap _

namespace RangeText

variable (r : RangeText)

/-- `TO` stands alone: a blank or the quote of the upper bound is behind it. -/
theorem freesKeyword_behindTo : freesKeyword r.behindTo = true := by
  rw [behindTo]
  by_cases hgap : r.afterTo.val = []
  · cases hupper : r.interval.upper with
    | none => exact absurd hgap (r.upper_starts hupper)
    | some text =>
      rw [hgap]
      rfl
  · obtain ⟨b, blanks, hblanks⟩ := List.exists_cons_of_ne_nil hgap
    have hblank := r.afterTo.property b (hblanks ▸ List.mem_cons_self)
    rw [hblanks]
    simp [freesKeyword, hblank]

/-- What stands in the brackets is an interval, up to the closing bracket. -/
theorem readInterval_inside (s : List Char) :
    readInterval r.interval.includesLower s r.inside = .ok (r.readAs, []) := by
  have hlower := readBound_boundText_of_quotable r.lower_quotable
    fun hnone => isBareBound_gap (r.lower_ends hnone) (['T', 'O'] ++ r.behindTo)
  have hto : keyword? ['T', 'O'] (skipBlanks (r.beforeTo.val ++ (['T', 'O'] ++ r.behindTo))) =
      some r.behindTo := by
    rw [skipBlanks_gap r.beforeTo rfl, keyword?, after?_append,
      Option.filter_some_pos r.freesKeyword_behindTo]
  have hupper := readBound_boundText_of_quotable r.upper_quotable
    fun _ => isBareBound_close r.beforeClose r.interval.includesUpper
  have hclose : skipBlanks (r.beforeClose.val ++ [closeBracket r.interval.includesUpper]) =
      [closeBracket r.interval.includesUpper] := by
    refine skipBlanks_gap r.beforeClose ?_
    cases r.interval.includesUpper <;> rfl
  rw [← skipBlanks_gap r.afterOpen (skipBlanks_boundText _ _)] at hlower
  rw [← skipBlanks_gap r.afterTo (skipBlanks_boundText _ _)] at hupper
  exact readInterval_of_bounds hlower hto hupper hclose s

/-- A range text starts a clause. -/
theorem startsBare_chars : StartsBare r.chars := by
  rw [chars]
  cases hpath : r.path with
  | nil => exact startsBare_bracket _ _
  | cons n path =>
    have hunsigned := r.unsigned n (by rw [hpath]; rfl)
    rw [FieldName.pathText_cons_append]
    exact startsBare_name hunsigned _

/-- It is the range that is read in its brackets, about the innermost of its fields. -/
theorem ofText?_text (d : Dialect) (field : String) :
    Expression.ofText? d field r.text =
      .ok (.multiTerm (FieldName.fieldBehind field r.path) (.range r.readAs)) := by
  refine r.startsBare_chars.ofText? ?_
  have hvalue : lacksValue (openBracket r.interval.includesLower :: r.inside) = false := by
    cases r.interval.includesLower <;> rfl
  rw [chars, FieldName.readPrimary_path d field r.fits hvalue]
  obtain ⟨below, hbelow⟩ := exists_readStart d (nestingLimit - r.path.length)
  have hrange : ∀ field' s, readRange Expression.builder field' r.interval.includesLower s r.inside =
      pure (.multiTerm field' (.range r.readAs), []) := by
    intro field' s
    rw [readRange_builder, r.readInterval_inside]
    rfl
  rw [hbelow]
  cases hincludes : r.interval.includesLower with
  | true =>
    rw [hincludes] at hrange
    exact hrange _ _
  | false =>
    rw [hincludes] at hrange
    exact hrange _ _

/-- A side is read as it is written, unless a lone star stands in its quotes. -/
theorem filter_eq_self_iff {bound : Option String} :
    bound.filter (· ≠ "*") = bound ↔ bound ≠ some "*" := by
  cases bound with
  | none => simp
  | some text => simp [Option.filter_eq_some_iff]

/-- A range is read as it is meant unless a bound of it is a lone star. -/
theorem readAs_eq_interval_iff :
    r.readAs = r.interval ↔ r.interval.lower ≠ some "*" ∧ r.interval.upper ≠ some "*" := by
  rw [← filter_eq_self_iff, ← filter_eq_self_iff]
  constructor
  · exact fun h => ⟨congrArg Interval.lower h, congrArg Interval.upper h⟩
  · rintro ⟨hlower, hupper⟩
    rw [readAs, hlower, hupper]

end RangeText

/-- A range text is parsed as one range about the innermost of its fields, with its brackets. A bound
is what stands in its quotes, with the blanks, brackets and `TO` in it, and a star without quotes
opens its side. A lone star in quotes opens its side as well, and but for that the range is the one
that is written. -/
theorem parse_rangeText (p : Parser) (r : RangeText) :
    let range (i : Interval) : Query :=
      .multiTerm (FieldName.fieldBehind p.config.defaultField r.path) (.range i) 1
    p.parse r.text = .ok (range r.readAs) ∧
    (p.parse r.text = .ok (range r.interval) ↔
      r.interval.lower ≠ some "*" ∧ r.interval.upper ≠ some "*") := by
  intro range
  have hcapture : p.capture r.text = .ok (range r.readAs, {}) :=
    Parser.capture_eq_ok_iff.mpr ⟨_, r.ofText?_text _ _, rfl, rfl⟩
  have hparse := Parser.parse_eq_of_no_anchors hcapture
  refine ⟨hparse, ?_⟩
  rw [hparse, ← r.readAs_eq_interval_iff]
  constructor
  · intro h
    have hrange : range r.readAs = range r.interval := Except.ok.inj h
    injection hrange with hfield hwhich
    injection hwhich
  · exact fun h => by rw [h]

/-- The brackets, the blanks, the `TO` and the star in these quotes are all of the bound. -/
theorem parse_rangeText_of_bracket :
    Parser.parse {} "title:\x7b\"] TO *\" TO *]" = .ok (.multiTerm "title" (.range
      { lower := some "] TO *", upper := none, includesLower := false, includesUpper := true })
      1) := by
  let title : FieldName :=
    { letters := ['t', 'i', 't', 'l', 'e'].map .plain, ne_nil := by decide, readable := by decide
      plain := by decide }
  have hquotable : IsQuotable "] TO *" := ⟨by decide, by decide⟩
  have hblank : ∀ c ∈ [' '], isBlank c = true := by simp [isBlank]
  let r : RangeText :=
    { path := [title]
      interval :=
        { lower := some "] TO *", upper := none, includesLower := false, includesUpper := true }
      afterOpen := ⟨[], List.forall_mem_nil _⟩
      beforeTo := ⟨[' '], hblank⟩
      afterTo := ⟨[' '], hblank⟩
      beforeClose := ⟨[], List.forall_mem_nil _⟩
      fits := by decide
      unsigned := by decide
      lower_quotable := by
        rintro text htext
        obtain rfl := Option.some.inj htext
        exact hquotable
      upper_quotable := by simp
      lower_ends := by simp
      upper_starts := fun _ => List.cons_ne_nil _ _ }
  obtain ⟨-, hfaithful⟩ := parse_rangeText {} r
  have htext : r.text = "title:\x7b\"] TO *\" TO *]" := by cbv
  rw [← htext]
  have hlower : some "] TO *" ≠ some "*" := by decide
  have hupper : (none : Option String) ≠ some "*" := by simp
  exact hfaithful.mpr ⟨hlower, hupper⟩

/-- With the star in quotes the lower side is as open as with the bare star. -/
theorem parse_range_of_quoted_star :
    let range : Query := .multiTerm "body" (.range
      { lower := none, upper := some "b", includesLower := true, includesUpper := true }) 1
    Parser.parse {} "[\"*\" TO \"b\"]" = .ok range ∧
      Parser.parse {} "[* TO \"b\"]" = .ok range :=
  ⟨by cbv, by cbv⟩

end ProximityQuery
