import ProximityQuery.Proofs.Outcome

/-!
# Invariants of scanning

Which texts can be left over while a text is read, and which phrases can be found in it. A property
of the text that is still unread has to survive the steps of the scanners: a plain character, an
escape, a bound of a range and a quoted phrase. It then holds wherever the reading of a clause, a
level or a whole text stops, and every phrase that is reported has a raw text the property admits.
-/

namespace ProximityQuery

open Grammar

/-- Two steps succeed when the first does and then the second. -/
theorem exists_ok_of_bind_eq_ok {ε β γ : Type} {x : Except ε β} {next : β → Except ε γ} {r : γ}
    (h : (x >>= next) = .ok r) : ∃ v, x = .ok v ∧ next v = .ok r := by
  cases x with
  | error e => cases h
  | ok v => exact ⟨v, rfl, h⟩

/-- Equal successes leave the same text. -/
theorem rest_eq_of_ok_eq {ε β : Type} {x y : β} {s t : List Char}
    (h : (Except.ok (x, s) : Except ε (β × List Char)) = .ok (y, t)) : s = t := by
  injection h with h
  exact congrArg Prod.snd h

/-- Whether a character is neither a backslash nor a quote. -/
def isPlain (c : Char) : Bool :=
  !(c = '\\' || c = '"')

/-- A class of characters without the backslash and the quote has only plain ones. -/
theorem isPlain_of_mem {p : Char → Bool} (hslash : p '\\' = false) (hquote : p '"' = false)
    {c : Char} (hc : p c = true) : isPlain c = true := by
  have hne : ∀ d, p d = false → c ≠ d := by
    rintro d hd rfl
    exact absurd hc (by rw [hd]; exact Bool.false_ne_true)
  simp [isPlain, hne '\\' hslash, hne '"' hquote]

/-- A property of unread texts that no scanner breaks; `admits` is what it grants of the raw text of
a phrase that starts there. -/
structure ScanInvariant (here : List Char → Prop) (admits : List Char → Prop) : Prop where
  /-- Nothing may be left. -/
  nil : here []
  /-- A plain character may be read. -/
  plain : ∀ {c s}, isPlain c = true → here (c :: s) → here s
  /-- A backslash may be read with the character after it. -/
  escaped : ∀ {c s}, here ('\\' :: c :: s) → here s
  /-- A bound without quotes may be read, which pays no heed to backslashes. -/
  bareBound : ∀ {s}, here s → here (s.dropWhile isBareBound)
  /-- A bound in quotes may be read. -/
  quotedBound : ∀ {inside c rest}, here ('"' :: inside) → inside.dropWhile (· ≠ '"') = c :: rest →
    here rest
  /-- A phrase may be read. -/
  phrase : ∀ {inside raw rest}, here ('"' :: inside) → readQuoted inside = some (raw, rest) →
    admits raw ∧ here rest

namespace ScanInvariant

variable {here admits : List Char → Prop}

section

variable (inv : ScanInvariant here admits)

include inv

/-- Plain characters of a class may be read up to the first of another class. -/
theorem here_dropWhile {p : Char → Bool} (hslash : p '\\' = false) (hquote : p '"' = false)
    {s : List Char} (hs : here s) : here (s.dropWhile p) := by
  induction s with
  | nil => exact hs
  | cons c s ih =>
    rw [List.dropWhile_cons]
    split
    next hc => exact ih (inv.plain (isPlain_of_mem hslash hquote hc) hs)
    next => exact hs

/-- Blanks are plain, so skipping them keeps the invariant. -/
theorem here_skipBlanks {s : List Char} (hs : here s) : here (skipBlanks s) :=
  inv.here_dropWhile rfl rfl hs

/-- A word of plain characters may be read. -/
theorem here_after? {word s rest : List Char} (hword : word.all isPlain = true)
    (h : after? word s = some rest) (hs : here s) : here rest := by
  obtain rfl := eq_append_of_after? h
  clear h
  induction word with
  | nil => exact hs
  | cons c word ih =>
    rw [List.all_cons, Bool.and_eq_true] at hword
    exact ih hword.2 (inv.plain hword.1 hs)

/-- So does a keyword of plain characters. -/
theorem here_keyword? {word s rest : List Char} (hword : word.all isPlain = true)
    (h : keyword? word s = some rest) (hs : here s) : here rest :=
  inv.here_after? hword (Option.filter_eq_some_iff.mp h).1 hs

/-- Conjunctions are made of plain characters. -/
theorem here_readConjunction {s : List Char} (hs : here s) : here (readConjunction s).2 := by
  unfold readConjunction
  split
  · exact inv.plain rfl (inv.plain rfl hs)
  · exact inv.plain rfl (inv.plain rfl hs)
  · split
    next h => exact inv.here_keyword? rfl h hs
    next =>
      split
      next h => exact inv.here_keyword? rfl h hs
      next => exact hs

/-- So are the signs of a clause. -/
theorem here_readModifier {s : List Char} (hs : here s) : here (readModifier s).2 := by
  unfold readModifier
  split
  · exact inv.plain rfl hs
  · exact inv.plain rfl hs
  · exact inv.plain rfl hs
  · split
    next h => exact inv.here_keyword? rfl h hs
    next => exact hs

/-- A word is read up to the end of its last escape. -/
theorem here_readWord {s : List Char} (hs : here s) : here (readWord s).2 := by
  fun_induction readWord s with
  | case1 => exact hs
  | case2 => exact inv.nil
  | case3 d s ih => exact ih (inv.escaped hs)
  | case4 => exact hs
  | case5 c s hc hend ih =>
    have hquote : c ≠ '"' := by
      rintro rfl
      exact hend rfl
    have hplain : isPlain c = true := by simp [isPlain, hc, hquote]
    exact ih (inv.plain hplain hs)

/-- The characters of a number are plain. -/
theorem here_readQuantity {α : Type} {what : Quantity} {value? : List Char → Option α}
    {s rest : List Char} {x : α} (h : readQuantity what value? s = .ok (x, rest)) (hs : here s) :
    here rest := by
  unfold readQuantity at h
  split at h
  · have hrest := inv.here_dropWhile (p := isNumeral) rfl rfl hs
    exact rest_eq_of_ok_eq h ▸ hrest
  · cases h

theorem here_readOptional {what : Quantity} {default n : UInt32} {s rest : List Char}
    (h : readOptional what default s = .ok (n, rest)) (hs : here s) : here rest := by
  unfold readOptional at h
  split at h
  · exact inv.here_readQuantity h hs
  · exact rest_eq_of_ok_eq h ▸ hs

theorem here_readSlop {n : UInt32} {s rest : List Char} (h : readSlop s = .ok (n, rest))
    (hs : here s) : here rest := by
  unfold readSlop at h
  split at h
  · exact rest_eq_of_ok_eq h ▸ hs
  next c s =>
    split at h
    next hc => exact inv.here_readOptional h (inv.plain (hc ▸ rfl) hs)
    next =>
      exact rest_eq_of_ok_eq h ▸ hs

/-- A bound keeps the invariant, which is asked of bounds with quotes and without. -/
theorem here_readBound {bound : Option String} {s rest : List Char}
    (h : readBound s = .ok (bound, rest)) (hs : here s) : here rest := by
  unfold readBound at h
  dsimp only at h
  split at h
  next inside =>
    split at h
    · cases h
    next c rest' hdrop =>
      split at h
      · cases h
      · exact rest_eq_of_ok_eq h ▸ inv.quotedBound hs hdrop
  next =>
    split at h
    · cases h
    · exact rest_eq_of_ok_eq h ▸ inv.bareBound hs

/-- An interval keeps it from behind its bracket on. -/
theorem here_readInterval {includesLower : Bool} {s inside rest : List Char} {interval : Interval}
    (h : readInterval includesLower s inside = .ok (interval, rest)) (hs : here inside) :
    here rest := by
  obtain ⟨⟨lower, r⟩, hlower, h⟩ := exists_ok_of_bind_eq_ok h
  have hr := inv.here_skipBlanks (inv.here_readBound hlower (inv.here_skipBlanks hs))
  dsimp only at h
  split at h
  next r' hto =>
    obtain ⟨⟨upper, r''⟩, hupper, h⟩ := exists_ok_of_bind_eq_ok h
    have hto := inv.here_keyword? rfl hto hr
    have hr := inv.here_skipBlanks (inv.here_readBound hupper (inv.here_skipBlanks hto))
    dsimp only at h
    split at h
    next hclose =>
      rw [hclose] at hr
      exact rest_eq_of_ok_eq h ▸ inv.plain rfl hr
    next hclose =>
      rw [hclose] at hr
      exact rest_eq_of_ok_eq h ▸ inv.plain rfl hr
    · cases h
  · cases h

end

end ScanInvariant

namespace Expression

/-- Whether the raw text of an expression is admitted, if the expression is a phrase. -/
def Admitted (admits : List Char → Prop) : Expression → Prop
  | .phrase _ raw _ => admits raw.toList
  | .term _ _ | .multiTerm _ _ | .boolean _ | .boost _ _ => True

end Expression

/-- A reading for the recorder that only calls admitted hooks, and whose value satisfies `post`. -/
def Recorded (admits : List Char → Prop) {β : Type} (post : β → Prop)
    (x : ExceptT Failure (StateM (List Expression)) β) : Prop :=
  ∀ log, (∀ e ∈ log, e.Admitted admits) →
    (∀ e ∈ (x.run.run log).2, e.Admitted admits) ∧ ∀ v, (x.run.run log).1 = .ok v → post v

namespace Recorded

variable {admits : List Char → Prop} {β γ : Type} {post : β → Prop}

/-- Nothing is recorded when a value is given back. -/
theorem pure {v : β} (h : post v) : Recorded admits post (Pure.pure v) := by
  intro log hlog
  refine ⟨hlog, fun w hw => ?_⟩
  injection hw with hw
  exact hw ▸ h

/-- Nothing is recorded by a failure, and nothing is claimed of what it leaves. -/
theorem throw (f : Failure) : Recorded admits post (MonadExcept.throw f) := by
  intro log hlog
  exact ⟨hlog, fun w hw => by cases hw⟩

/-- What two steps record one after the other is admitted if what each of them records is. -/
theorem bind {mid : β → Prop} {post : γ → Prop} {x : ExceptT Failure (StateM (List Expression)) β}
    {next : β → ExceptT Failure (StateM (List Expression)) γ} (hx : Recorded admits mid x)
    (hnext : ∀ v, mid v → Recorded admits post (next v)) : Recorded admits post (x >>= next) := by
  intro log hlog
  obtain ⟨hlog', hmid⟩ := hx log hlog
  have hrun : (x >>= next).run.run log =
      match x.run.run log with
      | (.ok v, log') => (next v).run.run log'
      | (.error f, log') => (.error f, log') := by
    rw [ExceptT.run_bind, StateT.run_bind]
    rcases x.run.run log with ⟨f | v, log'⟩
    · rfl
    · rfl
  rw [hrun]
  rcases hout : x.run.run log with ⟨f | v, log'⟩
  · rw [hout] at hlog'
    exact ⟨hlog', fun w hw => by cases hw⟩
  · rw [hout] at hlog' hmid
    exact hnext v (hmid v rfl) log' hlog'

/-- What is read without hooks. -/
theorem of_except {x : Except Failure β} (h : ∀ v, x = .ok v → post v) :
    Recorded admits post (liftM x) := by
  cases x with
  | error f => exact throw f
  | ok v => exact pure (h v rfl)

/-- A call of a hook. -/
theorem of_hook {e : Expression} (h : e.Admitted admits) :
    Recorded admits (fun _ => True) (liftM (Expression.record e)) := by
  intro log hlog
  refine ⟨fun e' he' => ?_, fun _ _ => trivial⟩
  rcases List.mem_append.mp he' with he' | he'
  · exact hlog e' he'
  · rw [List.mem_singleton] at he'
    exact he' ▸ h

end Recorded

/-- The call for a level holds no phrase. -/
theorem recorded_buildLevel (admits : List Char → Prop) (op : Operator)
    (items : List (Item Expression)) :
    Recorded admits (fun _ => True) (ExceptT.lift (buildLevel Expression.recorder op items)) := by
  have hboolean : (Expression.boolean (clausesOf op items)).Admitted admits := trivial
  unfold buildLevel
  split
  · split
    · exact Recorded.pure trivial
    · exact Recorded.of_hook hboolean
  · exact Recorded.of_hook hboolean

section

variable {here admits : List Char → Prop} (inv : ScanInvariant here admits)

include inv

/-- A phrase is recorded with a raw text that is admitted. -/
theorem recorded_readPhrase (field : String) {s inside : List Char} (hs : here ('"' :: inside)) :
    Recorded admits (fun p => here p.2) (readPhrase Expression.recorder field s inside) := by
  unfold readPhrase
  split
  · exact Recorded.throw _
  next raw rest hquoted =>
    obtain ⟨hraw, hrest⟩ := inv.phrase hs hquoted
    have hslop : Recorded admits (fun p => here p.2) (liftM (readSlop rest)) :=
      Recorded.of_except fun v hv => inv.here_readSlop hv hrest
    refine hslop.bind fun v hv => ?_
    have hadmitted : (Expression.phrase field (String.ofList raw) v.1).Admitted admits := by
      rwa [Expression.Admitted, String.toList_ofList]
    exact (Recorded.of_hook hadmitted).bind fun clause _ => Recorded.pure hv

/-- A range is recorded as such, and its bounds keep the invariant. -/
theorem recorded_readRange (field : String) (includesLower : Bool) {s inside : List Char}
    (hs : here inside) :
    Recorded admits (fun p => here p.2)
      (readRange Expression.recorder field includesLower s inside) := by
  have hinterval : Recorded admits (fun p => here p.2)
      (liftM (readInterval includesLower s inside)) :=
    Recorded.of_except fun v hv => inv.here_readInterval hv hs
  refine hinterval.bind fun v hv => ?_
  have hadmitted : (Expression.multiTerm field (.range v.1)).Admitted admits := trivial
  exact (Recorded.of_hook hadmitted).bind fun clause _ => Recorded.pure hv

theorem recorded_readBoost (clause : Expression) {s : List Char} (hs : here s) :
    Recorded admits (fun p => here p.2) (readBoost Expression.recorder clause s) := by
  unfold readBoost
  split
  next rest =>
    have hfactor : Recorded admits (fun p => here p.2)
        (liftM (readQuantity .boost Decimal.float32? rest)) :=
      Recorded.of_except fun v hv =>
        inv.here_readQuantity hv (inv.plain rfl hs)
    refine hfactor.bind fun v hv => ?_
    have hadmitted : (Expression.boost clause v.1).Admitted admits := trivial
    exact (Recorded.of_hook hadmitted).bind fun boosted _ => Recorded.pure hv
  next => exact Recorded.pure hs

/-- A reader of the start of a clause that keeps the invariant. -/
abbrev KeepsInvariant (here admits : List Char → Prop)
    (primary : Primary (StateM (List Expression)) Expression) : Prop :=
  ∀ field s, here s → Recorded admits (fun p => here p.2) (primary field s)

section

variable {primary : Primary (StateM (List Expression)) Expression}
  (hp : KeepsInvariant here admits primary)

include hp

/-- What stands before a clause is made of plain characters and records nothing. -/
theorem recorded_readItem (field : String) {s : List Char} (hs : here s) :
    Recorded admits (fun p => here p.2) (readItem Expression.recorder primary field s) := by
  have hconj := inv.here_skipBlanks (inv.here_readConjunction hs)
  unfold readItem
  dsimp only
  split
  · exact Recorded.throw _
  · have hstart := hp field _ (inv.here_skipBlanks (inv.here_readModifier hconj))
    exact hstart.bind fun v hv =>
      (recorded_readBoost inv v.1 hv).bind fun w hw => Recorded.pure hw

/-- The clauses of a level keep the invariant one after the other, by induction over
their number. -/
theorem recorded_readItems (field : String) (bound : Nat) {s : List Char} (hs : here s) :
    Recorded admits (fun p => here p.2)
      (readItems Expression.recorder primary field bound s) := by
  induction bound generalizing s with
  | zero => exact Recorded.pure hs
  | succ bound ih =>
    have hskip := inv.here_skipBlanks hs
    unfold readItems
    dsimp only
    split
    · exact Recorded.pure hskip
    · exact (recorded_readItem inv hp field hskip).bind fun v hv =>
        (ih hv).bind fun w hw => Recorded.pure hw

/-- A level keeps the invariant if its clauses do. -/
theorem recorded_readLevel (op : Operator) (field : String) {s : List Char} (hs : here s) :
    Recorded admits (fun p => here p.2) (readLevel Expression.recorder op primary field s) := by
  unfold readLevel
  exact (recorded_readItems inv hp field s.length hs).bind fun v hv =>
    (recorded_buildLevel admits op v.1).bind fun clause _ => Recorded.pure hv

end

section

variable {below : Option (Primary (StateM (List Expression)) Expression)}
  (hb : ∀ primary ∈ below, KeepsInvariant here admits primary)

include hb

/-- A group keeps it between its parentheses, which are plain. -/
theorem recorded_readGroup (op : Operator) (field : String) {s inside : List Char}
    (hs : here inside) :
    Recorded admits (fun p => here p.2)
      (readGroup Expression.recorder op below field s inside) := by
  unfold readGroup
  split
  · exact Recorded.throw _
  next primary =>
    refine (recorded_readLevel inv (hb primary rfl) op field hs).bind ?_
    rintro ⟨group, rest⟩ hrest
    dsimp only at hrest ⊢
    split
    next rest => exact Recorded.pure (inv.plain rfl hrest)
    · exact Recorded.throw _

omit inv in
theorem recorded_readFieldValue (field : String) {s value : List Char} (hs : here value) :
    Recorded admits (fun p => here p.2) (readFieldValue below field s value) := by
  unfold readFieldValue
  split
  · exact Recorded.throw _
  · split
    · exact Recorded.throw _
    next primary => exact hb primary rfl field value hs

/-- A word keeps the invariant, and so does the value behind it when it names a field. -/
theorem recorded_readWordClause (d : Dialect) (field : String) {s : List Char} (hs : here s) :
    Recorded admits (fun p => here p.2)
      (readWordClause Expression.recorder d below field s) := by
  have hword := inv.here_readWord hs
  rcases hw : readWord s with ⟨letters, rest⟩
  rw [hw] at hword
  simp only [readWordClause, hw]
  split
  · exact Recorded.throw _
  split
  next value => exact recorded_readFieldValue hb _ (inv.plain rfl hword)
  next rest =>
    have hrest : here rest := inv.plain rfl hword
    have hedits : Recorded admits (fun p => here p.2)
        (liftM (readOptional .editDistance d.fuzzyMaxEdits rest)) :=
      Recorded.of_except fun v hv => inv.here_readOptional hv hrest
    refine hedits.bind fun v hv => ?_
    have hadmitted : (Expression.multiTerm field
        (.fuzzy (String.ofList (letters.map Letter.char)) v.1)).Admitted admits := trivial
    exact (Recorded.of_hook hadmitted).bind fun clause _ => Recorded.pure hv
  · have hadmitted : (Expression.multiTerm field
        (.wildcard (String.ofList (letters.flatMap Letter.written)))).Admitted admits := trivial
    exact (Recorded.of_hook hadmitted).bind fun clause _ => Recorded.pure hword
  · have hadmitted : (Expression.term field
        (String.ofList (letters.map Letter.char))).Admitted admits := trivial
    exact (Recorded.of_hook hadmitted).bind fun clause _ => Recorded.pure hword

/-- A clause that is not yet boosted keeps the invariant if the clauses below do. -/
theorem keepsInvariant_readStart (d : Dialect) :
    KeepsInvariant here admits (readStart Expression.recorder d below) := by
  intro field s hs
  unfold readStart
  split
  · exact recorded_readGroup inv hb d.operator field (inv.plain rfl hs)
  · exact recorded_readPhrase inv field hs
  · exact recorded_readRange inv field true (inv.plain rfl hs)
  · exact recorded_readRange inv field false (inv.plain rfl hs)
  · exact recorded_readWordClause inv hb d field hs

end

/-- Every clause keeps the invariant, by induction over the levels that are left. -/
theorem keepsInvariant_readPrimary (d : Dialect) (levels : Nat) :
    KeepsInvariant here admits (readPrimary Expression.recorder d levels) := by
  induction levels with
  | zero => exact keepsInvariant_readStart inv (by simp) d
  | succ levels ih =>
    refine keepsInvariant_readStart inv (fun primary h => ?_) d
    rw [Option.mem_some_iff] at h
    exact h ▸ ih

/-- Where the invariant holds of a whole text, every call that its reading makes is admitted. -/
theorem admitted_of_mem_callsOfText (d : Dialect) (field : String) {text : String}
    (h : here text.toList) :
    ∀ e ∈ Expression.callsOfText d field text, e.Admitted admits := by
  have hlevel := recorded_readLevel inv (keepsInvariant_readPrimary inv d nestingLimit) d.operator
    field h
  have hwhole : Recorded admits (fun _ => True)
      (readWhole Expression.recorder d field text.toList) := by
    refine hlevel.bind ?_
    rintro ⟨clause, rest⟩ _
    dsimp only
    split
    · exact Recorded.pure trivial
    · exact Recorded.throw _
  have hcalls := (hwhole [] (by simp)).1
  have hlog : Expression.callsOfText d field text =
      ((readWhole Expression.recorder d field text.toList).run.run []).2 := by
    rfl
  rwa [hlog]

end

end ProximityQuery
