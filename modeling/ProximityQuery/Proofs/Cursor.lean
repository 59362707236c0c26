import Mathlib.Data.List.Forall2
import ProximityQuery.Proofs.Scanning

/-!
# Scanning by position

The readers of the grammar hold the text that is still unread. A cursor holds less: how many bytes
of the text are behind it, and how many nesting levels are open. What it reads it has to cut out of
the whole text again, and a cut that is out of bounds or falls inside a character is a fault. From
every place between two characters such a scan reads what the reader of the unread text reads, and
ends at the place where that reader stops.
-/

namespace ProximityQuery

open Grammar

/-- A text in two parts, the first of `n` bytes, when that many bytes are whole characters. -/
def cut? : Nat → List Char → Option (List Char × List Char)
  | 0, s => some ([], s)
  | _ + 1, [] => none
  | n + 1, c :: s =>
    if c.utf8Size ≤ n + 1 then
      (cut? (n + 1 - c.utf8Size) s).map fun (read, rest) => (c :: read, rest)
    else none

/-- A text can be cut where a beginning of it ends. -/
theorem cut?_append (read rest : List Char) :
    cut? (utf8Length read) (read ++ rest) = some (read, rest) := by
  induction read with
  | nil => rw [utf8Length, List.nil_append, cut?]
  | cons c read ih =>
    have hc := c.utf8Size_pos
    obtain ⟨n, hn⟩ : ∃ n, c.utf8Size + utf8Length read = n + 1 :=
      Nat.exists_eq_succ_of_ne_zero (by omega)
    have hsub : n + 1 - c.utf8Size = utf8Length read := by omega
    rw [utf8Length, hn, List.cons_append, cut?, if_pos (by omega), hsub, ih]
    rfl

/-- A text can be cut where a beginning of it ends and nowhere else. -/
theorem cut?_eq_some_iff {n : Nat} {s read rest : List Char} :
    cut? n s = some (read, rest) ↔ s = read ++ rest ∧ n = utf8Length read := by
  constructor
  · intro h
    induction s generalizing n read with
    | nil =>
      cases n with
      | zero =>
        obtain ⟨rfl, rfl⟩ := Prod.mk.inj (Option.some.inj h)
        exact ⟨rfl, rfl⟩
      | succ n => cases h
    | cons c s ih =>
      cases n with
      | zero =>
        obtain ⟨rfl, rfl⟩ := Prod.mk.inj (Option.some.inj h)
        exact ⟨rfl, rfl⟩
      | succ n =>
        rw [cut?] at h
        split at h
        next hle =>
          obtain ⟨⟨part, last⟩, hpart, heq⟩ := Option.map_eq_some_iff.mp h
          obtain ⟨rfl, rfl⟩ := Prod.mk.inj heq
          obtain ⟨rfl, hn⟩ := ih hpart
          exact ⟨rfl, by rw [utf8Length]; omega⟩
        next => cases h
  · rintro ⟨rfl, rfl⟩
    exact cut?_append read rest

/-- Behind a word that does not come next there is nothing. -/
theorem after?_eq_none {w s : List Char} (h : ∀ rest, s ≠ w ++ rest) : after? w s = none := by
  cases hafter : after? w s with
  | none => rfl
  | some rest => exact absurd (eq_append_of_after? hafter) (h rest)

/-- Where a scan stands in a text. -/
structure Cursor where
  /-- The bytes behind it. -/
  position : Nat
  /-- The nesting levels that are open. -/
  depth : Nat
deriving DecidableEq, Repr

/-- The cursor where the end `rest` of a text is unread. -/
def Cursor.before (whole : List Char) (depth : Nat) (rest : List Char) : Cursor :=
  { position := utf8Length whole - utf8Length rest, depth }

/-- A cursor has the bytes behind it that have been read. -/
theorem Cursor.position_before (depth : Nat) (read rest : List Char) :
    (Cursor.before (read ++ rest) depth rest).position = utf8Length read := by
  have hlength := utf8Length_append read rest
  simp only [before]
  omega

/-- Why a scan stops. -/
inductive Stop
  /-- The text is malformed. -/
  | malformed (e : Malformed)
  /-- The text is cut out of bounds or inside a character, or a check of the cursor fails. -/
  | fault
  /-- A loop or the recursion has used up its rounds. -/
  | unfinished
deriving DecidableEq, Repr

/-- Stops at a malformation. -/
def malformedAt {m : Type → Type} [MonadExcept Stop m] {β : Type} (position : Nat)
    (cause : Malformation) : m β :=
  throw (.malformed { position, cause })

/-- Scanning with a cursor. -/
abbrev Scan := StateT Cursor (Except Stop)

namespace Scan

section

variable {β γ : Type} {x : Scan β} {next : β → Scan γ} {cursor : Cursor}

/-- A scan goes on where its first step ends. -/
theorem run_bind_of_ok {cursor' : Cursor} {v : β} (h : x.run cursor = .ok (v, cursor')) :
    (x >>= next).run cursor = (next v).run cursor' := by
  rw [StateT.run_bind, h]
  rfl

/-- A scan whose first step stops goes no further. -/
theorem run_bind_of_error {stop : Stop} (h : x.run cursor = .error stop) :
    (x >>= next).run cursor = .error stop := by
  rw [StateT.run_bind, h]
  rfl

end

section

variable (whole : List Char)

/-- The text before the cursor. -/
def unread : Scan (List Char) := do
  match cut? (← get).position whole with
  | some (_, rest) => pure rest
  | none => throw .fault

/-- The text from a place to the cursor. -/
def slice (start : Nat) : Scan (List Char) := do
  match cut? (← get).position whole with
  | none => throw .fault
  | some (read, _) =>
    match cut? start read with
    | none => throw .fault
    | some (_, part) => pure part

/-- The character that comes next. -/
def peek : Scan (Option Char) := do
  return (← unread whole).head?

/-- Goes on by a number of bytes. -/
def skip (bytes : Nat) : Scan Unit :=
  modify fun cursor => { cursor with position := cursor.position + bytes }

/-- Goes past the next character, if there is one. -/
def advance : Scan Unit := do
  match ← peek whole with
  | some c => skip c.utf8Size
  | none => pure ()

/-- Whether a level ends at the cursor. -/
def atLevelEnd : Scan Bool := do
  if utf8Length whole ≤ (← get).position then
    return true
  else
    return (← peek whole) = some ')'

end

section

variable {whole s : List Char} (depth : Nat)

/-- Between two characters the unread text is cut out of the whole as it is. -/
theorem run_unread (hs : s <:+ whole) :
    (unread whole).run (.before whole depth s) = .ok (s, .before whole depth s) := by
  obtain ⟨read, rfl⟩ := hs
  simp only [unread, StateT.run_bind, StateT.run_get, pure_bind, Cursor.position_before,
    cut?_append]
  rfl

/-- Between two places of a text stands what was read from the one to the other. -/
theorem run_slice {start part : List Char} (hpart : start = part ++ s) (hs : start <:+ whole) :
    (slice whole (Cursor.before whole depth start).position).run (.before whole depth s) =
      .ok (part, .before whole depth s) := by
  obtain ⟨read, rfl⟩ := hs
  subst hpart
  have hposition := Cursor.position_before depth (read ++ part) s
  have hcut := cut?_append (read ++ part) s
  rw [List.append_assoc] at hposition hcut
  simp only [slice, StateT.run_bind, StateT.run_get, pure_bind, Cursor.position_before, hposition,
    hcut, cut?_append]
  rfl

/-- What comes next is the head of the unread text. -/
theorem run_peek (hs : s <:+ whole) :
    (peek whole).run (.before whole depth s) = .ok (s.head?, .before whole depth s) := by
  rw [peek, run_bind_of_ok (run_unread depth hs)]
  rfl

/-- Going on by the bytes of a text leaves the cursor behind that text. -/
theorem run_skip {part : List Char} (hs : part ++ s <:+ whole) :
    (skip (utf8Length part)).run (.before whole depth (part ++ s)) =
      .ok ((), .before whole depth s) := by
  obtain ⟨read, rfl⟩ := hs
  have hposition : utf8Length (read ++ (part ++ s)) - utf8Length (part ++ s) +
      utf8Length part = utf8Length (read ++ (part ++ s)) - utf8Length s := by
    simp only [utf8Length_append]
    omega
  rw [Cursor.before, Cursor.before, ← hposition]
  rfl

/-- Past a character the cursor stands before the rest. -/
theorem run_advance {c : Char} (hs : c :: s <:+ whole) :
    (advance whole).run (.before whole depth (c :: s)) = .ok ((), .before whole depth s) := by
  rw [advance, run_bind_of_ok (run_peek depth hs)]
  have hc : [c] ++ s <:+ whole := hs
  exact run_skip depth hc

/-- At the end of the text the cursor stays where it is. -/
theorem run_advance_nil :
    (advance whole).run (.before whole depth []) = .ok ((), .before whole depth []) := by
  rw [advance, run_bind_of_ok (run_peek depth List.nil_suffix)]
  rfl

/-- The cursor and the unread text tell alike whether a level ends here. -/
theorem run_atLevelEnd (hs : s <:+ whole) :
    (atLevelEnd whole).run (.before whole depth s) =
      .ok (endsLevel s, .before whole depth s) := by
  rw [atLevelEnd, StateT.run_bind, StateT.run_get, pure_bind]
  dsimp only
  cases s with
  | nil =>
    have hend : utf8Length whole ≤ (Cursor.before whole depth []).position := Nat.le_refl _
    rw [if_pos hend]
    rfl
  | cons c s =>
    have hinside : ¬ utf8Length whole ≤ (Cursor.before whole depth (c :: s)).position := by
      obtain ⟨read, rfl⟩ := hs
      have hc := c.utf8Size_pos
      rw [Cursor.position_before, utf8Length_append, utf8Length]
      omega
    have hclose : decide ((c :: s).head? = some ')') = endsLevel (c :: s) := by simp [endsLevel]
    rw [if_neg hinside, run_bind_of_ok (run_peek depth hs), ← hclose]
    rfl

end

/-- What a scan goes past if it comes next. -/
def Takes (whole s : List Char) (x : Scan Bool) (taken : Option (List Char)) : Prop :=
  ∀ depth, x.run (.before whole depth s) = .ok (taken.isSome, .before whole depth (taken.getD s))

section

variable (whole : List Char)

/-- Goes past a character if it comes next. -/
def consume (c : Char) : Scan Bool := do
  if (← peek whole) = some c then
    advance whole
    return true
  else
    return false

/-- Goes past a sign if it comes next. -/
def sign (word : List Char) : Scan Bool := do
  if word.isPrefixOf (← unread whole) then
    skip (utf8Length word)
    return true
  else
    return false

/-- Goes past a keyword if it comes next and stands alone. -/
def keyword (word : List Char) : Scan Bool := do
  let rest ← unread whole
  if word.isPrefixOf rest then
    match cut? (utf8Length word) rest with
    | none => throw .fault
    | some (_, behind) =>
      if freesKeyword behind then
        skip (utf8Length word)
        return true
      else
        return false
  else
    return false

end

section

variable {whole s : List Char}

/-- A single character is taken just when it is the head of the unread text. -/
theorem takes_consume (c : Char) (hs : s <:+ whole) :
    Takes whole s (consume whole c) (after? [c] s) := by
  intro depth
  rw [consume, run_bind_of_ok (run_peek depth hs)]
  by_cases hc : s.head? = some c
  · obtain ⟨rest, rfl⟩ := List.head?_eq_some_iff.mp hc
    rw [if_pos hc, run_bind_of_ok (run_advance depth hs), after?, if_pos rfl]
    rfl
  · have hafter : after? [c] s = none := after?_eq_none fun rest hrest => hc (by rw [hrest]; rfl)
    rw [if_neg hc, hafter]
    rfl

/-- A sign is taken just when the unread text begins with it. -/
theorem takes_sign (word : List Char) (hs : s <:+ whole) :
    Takes whole s (sign whole word) (after? word s) := by
  intro depth
  rw [sign, run_bind_of_ok (run_unread depth hs)]
  by_cases hword : word <+: s
  · obtain ⟨rest, rfl⟩ := hword
    rw [if_pos (by simp), run_bind_of_ok (run_skip depth hs), after?_append]
    rfl
  · have hafter := after?_eq_none fun rest hrest => hword ⟨rest, hrest.symm⟩
    rw [if_neg (by simpa using hword), hafter]
    rfl

/-- A keyword is taken just when the unread text begins with it and lets it stand alone. -/
theorem takes_keyword (word : List Char) (hs : s <:+ whole) :
    Takes whole s (keyword whole word) (keyword? word s) := by
  intro depth
  rw [keyword, run_bind_of_ok (run_unread depth hs)]
  by_cases hword : word <+: s
  · obtain ⟨rest, rfl⟩ := hword
    rw [if_pos (by simp), keyword?, after?_append, Option.filter_some]
    simp only [cut?_append]
    split
    next =>
      rw [run_bind_of_ok (run_skip depth hs)]
      rfl
    next => rfl
  · have hafter := after?_eq_none fun rest hrest => hword ⟨rest, hrest.symm⟩
    rw [if_neg (by simpa using hword), keyword?, hafter]
    rfl

end

/-- The meaning of the first of some signs and keywords that comes next, if one does. -/
def firstOf {β : Type} : List (Scan Bool × β) → Scan (Option β)
  | [] => pure none
  | (x, v) :: others => do
    if ← x then
      return some v
    else
      firstOf others

/-- The meaning of the first that is taken, and the rest behind it. -/
def firstTaken {β : Type} (s : List Char) :
    List (Option (List Char) × β) → Option β × List Char
  | [] => (none, s)
  | (some rest, v) :: _ => (some v, rest)
  | (none, _) :: others => firstTaken s others

section

variable {whole s : List Char} (depth : Nat)

/-- Trying signs and keywords in turn takes the first that comes next, or leaves the
cursor alone. -/
theorem run_firstOf {β : Type} {choices : List (Scan Bool × β)}
    {taken : List (Option (List Char) × β)}
    (h : List.Forall₂ (fun c t => Takes whole s c.1 t.1 ∧ c.2 = t.2) choices taken) :
    (firstOf choices).run (.before whole depth s) =
      .ok ((firstTaken s taken).1, .before whole depth (firstTaken s taken).2) := by
  induction h with
  | nil => rfl
  | @cons c t choices taken hct _ ih =>
    obtain ⟨x, v⟩ := c
    obtain ⟨rest?, v'⟩ := t
    obtain ⟨htakes, rfl⟩ := hct
    rw [firstOf, run_bind_of_ok (htakes depth)]
    cases rest? with
    | some rest => rfl
    | none => exact ih

end

/-- Reads a conjunction. -/
def conjunction (whole : List Char) : Scan (Option Conjunction) :=
  firstOf [(sign whole ['&', '&'], .and), (sign whole ['|', '|'], .or),
    (keyword whole ['A', 'N', 'D'], .and), (keyword whole ['O', 'R'], .or)]

/-- Reads the sign of a clause. -/
def modifier (whole : List Char) : Scan (Option Modifier) :=
  firstOf [(consume whole '+', .required), (consume whole '-', .prohibited),
    (consume whole '!', .prohibited), (keyword whole ['N', 'O', 'T'], .prohibited)]

section

variable {whole s : List Char} (depth : Nat)

/-- A conjunction is read as by the reader of the unread text. -/
theorem run_conjunction (hs : s <:+ whole) :
    (conjunction whole).run (.before whole depth s) =
      .ok ((readConjunction s).1, .before whole depth (readConjunction s).2) := by
  have hread : readConjunction s = firstTaken s [(after? ['&', '&'] s, .and),
      (after? ['|', '|'] s, .or), (keyword? ['A', 'N', 'D'] s, .and),
      (keyword? ['O', 'R'] s, .or)] := by
    unfold readConjunction
    split
    · rfl
    · rfl
    next hand hor =>
      rw [after?_eq_none (w := ['&', '&']) hand, after?_eq_none (w := ['|', '|']) hor]
      cases keyword? ['A', 'N', 'D'] s with
      | some rest => rfl
      | none => cases keyword? ['O', 'R'] s <;> rfl
  rw [hread]
  exact run_firstOf depth (.cons ⟨takes_sign _ hs, rfl⟩ (.cons ⟨takes_sign _ hs, rfl⟩
    (.cons ⟨takes_keyword _ hs, rfl⟩ (.cons ⟨takes_keyword _ hs, rfl⟩ .nil))))

/-- So is the sign of a clause. -/
theorem run_modifier (hs : s <:+ whole) :
    (modifier whole).run (.before whole depth s) =
      .ok ((readModifier s).1, .before whole depth (readModifier s).2) := by
  have hread : readModifier s = firstTaken s [(after? ['+'] s, .required),
      (after? ['-'] s, .prohibited), (after? ['!'] s, .prohibited),
      (keyword? ['N', 'O', 'T'] s, .prohibited)] := by
    unfold readModifier
    split
    · rfl
    · rfl
    · rfl
    next hplus hminus hbang =>
      rw [after?_eq_none (w := ['+']) hplus, after?_eq_none (w := ['-']) hminus,
        after?_eq_none (w := ['!']) hbang]
      cases keyword? ['N', 'O', 'T'] s <;> rfl
  rw [hread]
  exact run_firstOf depth (.cons ⟨takes_consume _ hs, rfl⟩ (.cons ⟨takes_consume _ hs, rfl⟩
    (.cons ⟨takes_consume _ hs, rfl⟩ (.cons ⟨takes_keyword _ hs, rfl⟩ .nil))))

end

end Scan

/-- What a reader leaves unread: a text of which `P` holds, or the end of the whole text from a
malformation on. -/
def Leaves {β : Type} (whole : List Char) (P : List Char → Prop) :
    Except Failure (β × List Char) → Prop
  | .ok (_, rest) => P rest
  | .error f => f.unread <:+ whole

/-- What holds of the text that is left may be weakened. -/
theorem Leaves.imp {β : Type} {whole : List Char} {P Q : List Char → Prop}
    {y : Except Failure (β × List Char)} (h : Leaves whole P y) (hPQ : ∀ t, P t → Q t) :
    Leaves whole Q y := by
  rcases y with f | ⟨v, rest⟩
  · exact h
  · exact hPQ rest h

/-- What a reader reads, with a cursor for the text that it leaves. -/
def Cursor.placed {β : Type} (whole : List Char) (depth : Nat) :
    Except Failure (β × List Char) → Except Stop (β × Cursor)
  | .ok (v, rest) => .ok (v, .before whole depth rest)
  | .error f => .error (.malformed (f.located whole))

/-- A scan from the text `s` reads what a reader reads, and `P` holds of the text that is left. -/
structure Scan.Reads {β : Type} (whole : List Char) (depth : Nat) (s : List Char)
    (P : List Char → Prop) (x : Scan β) (y : Except Failure (β × List Char)) : Prop where
  run : x.run (.before whole depth s) = Cursor.placed whole depth y
  leaves : Leaves whole P y

namespace Scan.Reads

variable {β γ : Type} {whole s : List Char} {depth : Nat} {P Q : List Char → Prop}

/-- A scan that reads nothing leaves the text that it was given. -/
theorem pure {v : β} (hs : P s) : Reads whole depth s P (pure v) (.ok (v, s)) :=
  ⟨rfl, hs⟩

/-- A malformation is reported at the place where the unread text begins. -/
theorem malformed {t : List Char} (cause : Malformation) (ht : t <:+ whole) :
    Reads whole depth s P
      (malformedAt (Cursor.before whole depth t).position cause : Scan β)
      (.error { cause, unread := t }) :=
  ⟨rfl, ht⟩

/-- What a reading says of the text that is left may be weakened. -/
theorem imp {x : Scan β} {y : Except Failure (β × List Char)} (h : Reads whole depth s P x y)
    (hPQ : ∀ t, P t → Q t) : Reads whole depth s Q x y :=
  ⟨h.run, h.leaves.imp hPQ⟩

/-- A scan reads step by step as the reader does. -/
theorem bind {x : Scan β} {y : Except Failure (β × List Char)} {next : β → Scan γ}
    {next' : β × List Char → Except Failure (γ × List Char)} (h : Reads whole depth s P x y)
    (hnext : ∀ v rest, P rest → Reads whole depth rest Q (next v) (next' (v, rest))) :
    Reads whole depth s Q (x >>= next) (y >>= next') := by
  obtain ⟨hrun, hleaves⟩ := h
  rcases y with f | ⟨v, rest⟩
  · exact ⟨run_bind_of_error hrun, hleaves⟩
  · have hrest := hnext v rest hleaves
    exact ⟨(run_bind_of_ok hrun).trans hrest.run, hrest.leaves⟩

/-- A step that only moves the cursor. -/
theorem step {x : Scan β} {v : β} {t : List Char}
    (hx : x.run (.before whole depth s) = .ok (v, .before whole depth t)) {next : β → Scan γ}
    {y : Except Failure (γ × List Char)} (h : Reads whole depth t P (next v) y) :
    Reads whole depth s P (x >>= next) y :=
  ⟨(run_bind_of_ok hx).trans h.run, h.leaves⟩

/-- Looking at the cursor reads nothing. -/
theorem get_bind {next : Cursor → Scan γ} {y : Except Failure (γ × List Char)}
    (h : Reads whole depth s P (next (.before whole depth s)) y) :
    Reads whole depth s P (get >>= next) y :=
  step rfl h

/-- A scan goes on by whether something came next. -/
theorem ite {x : Scan Bool} {taken : Option (List Char)} (h : Takes whole s x taken)
    {y z : Scan β} {r : Except Failure (β × List Char)}
    (hsome : ∀ rest, taken = some rest → Reads whole depth rest P y r)
    (hnone : taken = none → Reads whole depth s P z r) :
    Reads whole depth s P (x >>= fun b => if b then y else z) r := by
  have hx := h depth
  cases taken with
  | some rest => exact step hx (hsome rest rfl)
  | none => exact step hx (hnone rfl)

end Scan.Reads

end ProximityQuery
