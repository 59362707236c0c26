import ProximityQuery.Proofs.Capture
import ProximityQuery.Proofs.Reading
import ProximityQuery.Proofs.Scanning

/-!
# Where the phrases of a text stand

The raw texts of the phrases of an expression stand in the text that was read, one after the other
and each between two quotes of its own. Every reader takes a beginning off the text, and the phrases
it reports are quoted in that beginning in the order in which it reports them.
-/

namespace ProximityQuery

open Grammar

/-- Some texts stand in a text one after the other, each between two quotes of its own. -/
inductive QuotedIn : List (List Char) → List Char → Prop
  | nil (s : List Char) : QuotedIn [] s
  | cons (before raw : List Char) {raws : List (List Char)} {s : List Char} (h : QuotedIn raws s) :
      QuotedIn (raw :: raws) (before ++ '"' :: raw ++ '"' :: s)

namespace QuotedIn

variable {raws others : List (List Char)} {s t : List Char}

/-- What stands before a text adds nothing to the texts that are quoted in it. -/
theorem prepend (before : List Char) (h : QuotedIn raws s) : QuotedIn raws (before ++ s) := by
  cases h with
  | nil => exact .nil _
  | cons gap raw h =>
    have hcons := QuotedIn.cons (before ++ gap) raw h
    simpa using hcons

/-- Texts that are quoted in two texts are quoted in the two in a row. -/
theorem append (h : QuotedIn raws s) (ht : QuotedIn others t) :
    QuotedIn (raws ++ others) (s ++ t) := by
  induction h with
  | nil s => exact ht.prepend s
  | cons before raw _ ih =>
    have hcons := QuotedIn.cons before raw ih
    simpa using hcons

end QuotedIn

/-- Reading has gone from a text to the rest of it, past these texts in quotes. -/
def PassesQuotes (raws : List (List Char)) (s rest : List Char) : Prop :=
  ∃ read, s = read ++ rest ∧ QuotedIn raws read

namespace PassesQuotes

variable {raws others : List (List Char)} {s t rest : List Char}

/-- Reading on to an end piece of the text need not pass any quotes. -/
theorem of_suffix (h : rest <:+ s) : PassesQuotes [] s rest := by
  obtain ⟨read, rfl⟩ := h
  exact ⟨read, rfl, .nil read⟩

/-- What is passed in two goes is passed in one. -/
theorem trans (h : PassesQuotes raws s t) (ht : PassesQuotes others t rest) :
    PassesQuotes (raws ++ others) s rest := by
  obtain ⟨read, rfl, hread⟩ := h
  obtain ⟨more, rfl, hmore⟩ := ht
  exact ⟨read ++ more, by rw [List.append_assoc], hread.append hmore⟩

/-- What is read from a suffix is read from the whole text. -/
theorem of_suffix_left (hs : t <:+ s) (h : PassesQuotes raws t rest) : PassesQuotes raws s rest :=
  (of_suffix hs).trans h

end PassesQuotes

namespace Expression

/-- The raw text of an expression that is a phrase. -/
def rawText? : Expression → Option (List Char)
  | .phrase _ raw _ => some raw.toList
  | .term _ _ | .multiTerm _ _ | .boolean _ | .boost _ _ => none

/-- The raw texts of the phrases in an expression, from left to right. -/
def rawTexts (e : Expression) : List (List Char) :=
  e.calls.filterMap rawText?

/-- The raw texts of a level are those of its clauses in a row. -/
theorem rawTexts_boolean (clauses : List (Expression × Occur)) :
    (boolean clauses).rawTexts = clauses.flatMap fun c => c.1.rawTexts := by
  rw [rawTexts, calls, callsOfClauses_eq_flatMap, List.filterMap_append, List.filterMap_flatMap]
  simp [rawText?, rawTexts]

/-- A boost has no raw text of its own. -/
theorem rawTexts_boost (clause : Expression) (factor : Float32) :
    (boost clause factor).rawTexts = clause.rawTexts := by
  rw [rawTexts, calls, List.filterMap_append]
  simp [rawText?, rawTexts]

/-- The anchors of an expression have its raw texts. -/
theorem map_rawText_anchors (inOrder : Bool) (e : Expression) :
    (e.anchors inOrder).map (fun a => a.rawText.toList) = e.rawTexts := by
  have hraw : ∀ e : Expression,
      (e.anchor? inOrder).map (fun a => a.rawText.toList) = e.rawText? := by
    intro e
    cases e <;> rfl
  rw [anchors, List.map_filterMap, rawTexts, funext hraw]

end Expression

/-- The raw texts of the phrases in the clauses of a level. -/
def Grammar.Item.rawTexts (items : List (Item Expression)) : List (List Char) :=
  items.flatMap fun item => item.clause.rawTexts

/-- The expression of a level has the phrases of its clauses. -/
theorem rawTexts_levelOf (op : Operator) (items : List (Item Expression)) :
    (levelOf op items).rawTexts = Item.rawTexts items := by
  rcases levelOf_cases op items with ⟨item, rfl, hlevel⟩ | hlevel
  · rw [hlevel, Item.rawTexts, List.flatMap_singleton]
  · have hfst := congrArg (List.flatMap Expression.rawTexts) (map_fst_clausesOf op items)
    rw [List.flatMap_map, List.flatMap_map] at hfst
    rw [hlevel, Expression.rawTexts_boolean, hfst, Item.rawTexts]

/-- A reading that reports, after the texts `before`, those that it passes in quotes. -/
def ReportsQuotes {β : Type} (before : List (List Char)) (reported : β → List (List Char))
    (s : List Char) (x : ExceptT Failure Id (β × List Char)) : Prop :=
  ∀ v rest, x = pure (v, rest) → ∃ raws, reported v = before ++ raws ∧ PassesQuotes raws s rest

namespace ReportsQuotes

variable {β γ : Type} {before : List (List Char)} {reported : β → List (List Char)}
  {s : List Char}

/-- A reading that fails has nothing to report. -/
theorem throw (f : Failure) : ReportsQuotes before reported s (MonadExcept.throw f) := by
  intro v rest h
  cases h

/-- Nothing is reported while no phrase is passed. -/
theorem pure {v : β} {rest : List Char} (hv : reported v = before) (hs : rest <:+ s) :
    ReportsQuotes before reported s (Pure.pure (v, rest)) := by
  intro w t h
  injection h with h
  obtain ⟨rfl, rfl⟩ := Prod.mk.inj h
  exact ⟨[], by rw [hv, List.append_nil], .of_suffix hs⟩

/-- A reading in two steps reports what the second one does when it starts from the report of the
first. -/
theorem bind {reported' : γ → List (List Char)} {x : ExceptT Failure Id (β × List Char)}
    {next : β × List Char → ExceptT Failure Id (γ × List Char)}
    (hx : ReportsQuotes before reported s x)
    (hnext : ∀ v rest, ReportsQuotes (reported v) reported' rest (next (v, rest))) :
    ReportsQuotes before reported' s (x >>= next) := by
  intro w t h
  obtain ⟨⟨v, rest⟩, hv, hw⟩ := exists_pure_of_bind_eq_pure h
  obtain ⟨raws, hreported, hpasses⟩ := hx v rest hv
  obtain ⟨others, hreported', hpasses'⟩ := hnext v rest w t hw
  exact ⟨raws ++ others, by rw [hreported', hreported, List.append_assoc],
    hpasses.trans hpasses'⟩

/-- What is read without hooks holds no phrase. -/
theorem of_except {x : Except Failure (β × List Char)} (h : ∀ v, x = .ok v → v.2 <:+ s) :
    ReportsQuotes before (fun _ => before) s (liftM x) := by
  cases x with
  | error f => exact throw f
  | ok v => exact pure rfl (h v rfl)

/-- A reading of a suffix. -/
theorem of_suffix {t : List Char} (hs : t <:+ s) {x : ExceptT Failure Id (β × List Char)}
    (h : ReportsQuotes before reported t x) : ReportsQuotes before reported s x := by
  intro v rest hv
  obtain ⟨raws, hreported, hpasses⟩ := h v rest hv
  exact ⟨raws, hreported, hpasses.of_suffix_left hs⟩

/-- What is reported earlier stands before. -/
theorem after {x : ExceptT Failure Id (β × List Char)} (earlier : List (List Char))
    (h : ReportsQuotes [] reported s x) :
    ReportsQuotes earlier (fun v => earlier ++ reported v) s x := by
  intro v rest hv
  obtain ⟨raws, hreported, hpasses⟩ := h v rest hv
  exact ⟨raws, congrArg (earlier ++ ·) hreported, hpasses⟩

end ReportsQuotes

/-- What is left unread is the end of the text. -/
theorem scanInvariant_suffix (whole : List Char) :
    ScanInvariant (fun s => s <:+ whole) fun _ => True where
  nil := List.nil_suffix
  plain _ h := (List.suffix_cons ..).trans h
  escaped h := ((List.suffix_cons ..).trans (List.suffix_cons ..)).trans h
  bareBound h := (List.dropWhile_suffix _).trans h
  quotedBound {inside c rest} h hdrop := by
    have hrest : rest <:+ inside.dropWhile (· ≠ '"') := hdrop ▸ List.suffix_cons c rest
    exact ((hrest.trans (List.dropWhile_suffix _)).trans (List.suffix_cons ..)).trans h
  phrase {inside raw rest} h hread := by
    have hrest : rest <:+ inside :=
      ⟨raw ++ ['"'], by rw [eq_append_of_readQuoted hread, List.append_assoc]; rfl⟩
    exact ⟨trivial, (hrest.trans (List.suffix_cons ..)).trans h⟩

/-- A phrase is quoted where it is read. -/
theorem reportsQuotes_readPhrase (field : String) (inside : List Char) :
    ReportsQuotes [] Expression.rawTexts ('"' :: inside)
      (readPhrase Expression.builder field ('"' :: inside) inside) := by
  rw [readPhrase_builder]
  cases hread : readQuoted inside with
  | none => exact ReportsQuotes.throw _
  | some p =>
    obtain ⟨raw, rest⟩ := p
    intro v rest' h
    obtain ⟨⟨slop, rest''⟩, hslop, hv⟩ := exists_pure_of_bind_eq_pure h
    injection hv with hv
    obtain ⟨rfl, rfl⟩ := Prod.mk.inj hv
    obtain ⟨read, hrest⟩ : rest'' <:+ rest :=
      (scanInvariant_suffix rest).here_readSlop (eq_ok_of_liftM_eq_pure hslop) List.suffix_rfl
    refine ⟨[raw], ?_, '"' :: raw ++ '"' :: read, ?_, ?_⟩
    · simp [Expression.rawTexts, Expression.calls, Expression.rawText?]
    · rw [eq_append_of_readQuoted hread, ← hrest]
      simp
    · exact .cons [] raw (.nil read)

/-- A range holds no phrase, even if its bounds are in quotes. -/
theorem reportsQuotes_readRange (field : String) (includesLower : Bool) {s inside : List Char}
    (hs : inside <:+ s) :
    ReportsQuotes [] Expression.rawTexts s
      (readRange Expression.builder field includesLower s inside) := by
  rw [readRange_builder]
  have hinterval : ReportsQuotes [] (fun _ : Interval => []) s
      (liftM (readInterval includesLower s inside)) :=
    .of_except fun v hv => (scanInvariant_suffix s).here_readInterval hv hs
  exact hinterval.bind fun interval rest => .pure rfl List.suffix_rfl

/-- A boost adds no phrase to those of its clause. -/
theorem reportsQuotes_readBoost (clause : Expression) (s : List Char) :
    ReportsQuotes clause.rawTexts Expression.rawTexts s
      (readBoost Expression.builder clause s) := by
  rw [readBoost_builder]
  split
  next rest =>
    have hfactor : ReportsQuotes clause.rawTexts (fun _ : Float32 => clause.rawTexts) ('^' :: rest)
        (liftM (readQuantity .boost Decimal.float32? rest)) :=
      .of_except fun v hv => (scanInvariant_suffix _).here_readQuantity hv (List.suffix_cons ..)
    exact hfactor.bind fun factor rest' =>
      .pure (Expression.rawTexts_boost clause factor) List.suffix_rfl
  next => exact .pure rfl List.suffix_rfl

/-- A reader of the start of a clause that reports the phrases it passes. -/
abbrev PrimaryReportsQuotes (primary : Primary Id Expression) : Prop :=
  ∀ field s, ReportsQuotes [] Expression.rawTexts s (primary field s)

section

variable {primary : Primary Id Expression} (hp : PrimaryReportsQuotes primary)

include hp

/-- What stands before a clause adds no phrase to those of the clause. -/
theorem reportsQuotes_readItem (field : String) (s : List Char) :
    ReportsQuotes [] (fun item => item.clause.rawTexts) s
      (readItem Expression.builder primary field s) := by
  have hconj := (scanInvariant_suffix s).here_skipBlanks
    ((scanInvariant_suffix s).here_readConjunction List.suffix_rfl)
  have hmod := (scanInvariant_suffix s).here_skipBlanks
    ((scanInvariant_suffix s).here_readModifier hconj)
  unfold readItem
  dsimp only
  split
  · exact .throw _
  · refine ReportsQuotes.bind ((hp field _).of_suffix hmod) fun start rest => ?_
    exact (reportsQuotes_readBoost start rest).bind fun clause rest' => .pure rfl List.suffix_rfl

/-- The clauses of a level report their phrases one after the other. -/
theorem reportsQuotes_readItems (field : String) (bound : Nat) (s : List Char) :
    ReportsQuotes [] Item.rawTexts s (readItems Expression.builder primary field bound s) := by
  induction bound generalizing s with
  | zero => exact .pure rfl List.suffix_rfl
  | succ bound ih =>
    unfold readItems
    dsimp only
    split
    · exact .pure rfl (skipBlanks_suffix s)
    · refine ReportsQuotes.bind
        ((reportsQuotes_readItem hp field _).of_suffix (skipBlanks_suffix s)) fun item rest => ?_
      exact ((ih rest).after item.clause.rawTexts).bind fun items rest' =>
        .pure (List.flatMap_cons ..) List.suffix_rfl

/-- A level reports the phrases of its clauses. -/
theorem reportsQuotes_readLevel (op : Operator) (field : String) (s : List Char) :
    ReportsQuotes [] Expression.rawTexts s
      (readLevel Expression.builder op primary field s) := by
  rw [readLevel_builder]
  exact (reportsQuotes_readItems hp field s.length s).bind fun items rest =>
    .pure (rawTexts_levelOf op items) List.suffix_rfl

end

section

variable {below : Option (Primary Id Expression)}
  (hb : ∀ primary ∈ below, PrimaryReportsQuotes primary)

include hb

/-- A group reports the phrases of the level inside it. -/
theorem reportsQuotes_readGroup (op : Operator) (field : String) {s inside : List Char}
    (hs : inside <:+ s) :
    ReportsQuotes [] Expression.rawTexts s
      (readGroup Expression.builder op below field s inside) := by
  unfold readGroup
  split
  · exact .throw _
  next primary =>
    have hlevel := reportsQuotes_readLevel (hb primary rfl) op field inside
    refine ReportsQuotes.bind (hlevel.of_suffix hs) fun group rest => ?_
    dsimp only
    split
    next rest => exact .pure rfl (List.suffix_cons ..)
    · exact .throw _

/-- The value of a field reports its phrases as it would without the field. -/
theorem reportsQuotes_readFieldValue (field : String) {s t value : List Char}
    (hs : value <:+ s) :
    ReportsQuotes [] Expression.rawTexts s (readFieldValue below field t value) := by
  unfold readFieldValue
  split
  · exact .throw _
  · split
    · exact .throw _
    next primary => exact (hb primary rfl field value).of_suffix hs

/-- A clause that starts with a word reports the phrases of the value behind it, if the word names a
field, and none otherwise. -/
theorem reportsQuotes_readWordClause (d : Dialect) (field : String) (s : List Char) :
    ReportsQuotes [] Expression.rawTexts s
      (readWordClause Expression.builder d below field s) := by
  have hword : (readWord s).2 <:+ s := (scanInvariant_suffix s).here_readWord List.suffix_rfl
  rcases hw : readWord s with ⟨letters, rest⟩
  rw [hw] at hword
  simp only [readWordClause, hw]
  split
  · exact .throw _
  split
  next value => exact reportsQuotes_readFieldValue hb _ ((List.suffix_cons ..).trans hword)
  next rest =>
    have hedits : ReportsQuotes [] (fun _ : UInt32 => []) s
        (liftM (readOptional .editDistance d.fuzzyMaxEdits rest)) :=
      .of_except fun v hv =>
        (scanInvariant_suffix s).here_readOptional hv ((List.suffix_cons ..).trans hword)
    exact hedits.bind fun edits rest' => .pure rfl List.suffix_rfl
  · exact .pure rfl hword
  · exact .pure rfl hword

/-- A clause that is not yet boosted reports the phrases it passes if the clauses below do. -/
theorem reportsQuotes_readStart (d : Dialect) :
    PrimaryReportsQuotes (readStart Expression.builder d below) := by
  intro field s
  unfold readStart
  split
  · exact reportsQuotes_readGroup hb d.operator field (List.suffix_cons ..)
  · exact reportsQuotes_readPhrase field _
  · exact reportsQuotes_readRange field true (List.suffix_cons ..)
  · exact reportsQuotes_readRange field false (List.suffix_cons ..)
  · exact reportsQuotes_readWordClause hb d field s

end

/-- Every clause reports the phrases it passes, by induction over the levels that are left. -/
theorem reportsQuotes_readPrimary (d : Dialect) (levels : Nat) :
    PrimaryReportsQuotes (readPrimary Expression.builder d levels) := by
  induction levels with
  | zero => exact reportsQuotes_readStart (by simp) d
  | succ levels ih =>
    refine reportsQuotes_readStart (fun primary h => ?_) d
    rw [Option.mem_some_iff] at h
    exact h ▸ ih

/-- The phrases of an expression are quoted in its text, in their order. -/
theorem Expression.quotedIn_of_ofText? {d : Dialect} {field text : String} {e : Expression}
    (h : ofText? d field text = .ok e) : QuotedIn e.rawTexts text.toList := by
  have hlevel := reportsQuotes_readLevel (reportsQuotes_readPrimary d nestingLimit) d.operator
    field text.toList
  obtain ⟨⟨e', rest⟩, he, hend⟩ := exists_pure_of_bind_eq_pure (ofText?_eq_ok_iff.mp h)
  dsimp only at hend
  split at hend
  · obtain ⟨raws, hraws, read, htext, hquoted⟩ := hlevel e' [] he
    obtain rfl : e' = e := Except.ok.inj hend
    rw [hraws, htext, List.append_nil]
    exact hquoted
  · cases hend

end ProximityQuery
