import Mathlib
import ProximityQuery.Proofs.CursorTokens

/-!
# Checks of a cursor

A procedure of the grammar checks its cursor where it is entered and again where it succeeds: the
cursor stands between two characters, no more levels are open than may be, and the procedure goes
forward and closes every level that it opens. The checks hold where the cursor follows a reader of
the unread text that leaves an end of the text it is given.
-/

namespace ProximityQuery

open Grammar

namespace Cursor

/-- A cursor stands between two characters of a text, with no more levels open than may be. -/
structure Sound (whole : List Char) (c : Cursor) : Prop where
  /-- The bytes behind it are a beginning of the text. -/
  boundary : ∃ read rest, whole = read ++ rest ∧ c.position = utf8Length read
  depth : c.depth ≤ nestingLimit

/-- What a procedure makes of the cursor `c` on success; a strict one has to read something. -/
structure Advances (whole : List Char) (strict : Bool) (c c' : Cursor) : Prop where
  sound : c'.Sound whole
  forward : c.position ≤ c'.position
  progress : strict = true → c.position < c'.position
  depth : c'.depth = c.depth

variable {whole : List Char} {strict : Bool} {c c' : Cursor}

/-- Whether a cursor is sound can be checked by one cut. -/
theorem sound_iff :
    c.Sound whole ↔ (cut? c.position whole).isSome = true ∧ c.depth ≤ nestingLimit := by
  constructor
  · rintro ⟨⟨read, rest, hwhole, hposition⟩, hdepth⟩
    exact ⟨by rw [cut?_eq_some_iff.mpr ⟨hwhole, hposition⟩]; rfl, hdepth⟩
  · rintro ⟨hcut, hdepth⟩
    obtain ⟨⟨read, rest⟩, hcut⟩ := Option.isSome_iff_exists.mp hcut
    obtain ⟨hwhole, hposition⟩ := cut?_eq_some_iff.mp hcut
    exact ⟨⟨read, rest, hwhole, hposition⟩, hdepth⟩

instance : Decidable (c.Sound whole) :=
  decidable_of_iff' _ sound_iff

/-- Behind the first byte of a character of two bytes no cursor is sound. -/
example : ¬ ({ position := 1, depth := 0 } : Cursor).Sound ['é'] := by decide

/-- The checks at the end of a procedure, one by one. -/
theorem advances_iff :
    c.Advances whole strict c' ↔ c'.Sound whole ∧ c.position ≤ c'.position ∧
      (strict = true → c.position < c'.position) ∧ c'.depth = c.depth :=
  ⟨fun ⟨hsound, hforward, hprogress, hdepth⟩ => ⟨hsound, hforward, hprogress, hdepth⟩,
    fun ⟨hsound, hforward, hprogress, hdepth⟩ => ⟨hsound, hforward, hprogress, hdepth⟩⟩

instance : Decidable (c.Advances whole strict c') :=
  decidable_of_iff' _ advances_iff

variable {depth : Nat} {s t : List Char}

/-- A cursor is sound wherever a reader may stand. -/
theorem sound_before (hdepth : depth ≤ nestingLimit) (hs : s <:+ whole) :
    (before whole depth s).Sound whole := by
  obtain ⟨read, rfl⟩ := hs
  exact ⟨⟨read, s, rfl, position_before depth read s⟩, hdepth⟩

/-- Reading goes forward, and further the shorter the text that is left. -/
theorem advances_before (hdepth : depth ≤ nestingLimit) (hs : s <:+ whole) (ht : t <:+ s)
    (hstrict : strict = true → t.length < s.length) :
    (before whole depth s).Advances whole strict (before whole depth t) where
  sound := sound_before hdepth (ht.trans hs)
  forward := by
    obtain ⟨read, rfl⟩ := ht
    simp only [before, utf8Length_append]
    omega
  progress := by
    intro h
    have hless := hstrict h
    obtain ⟨read, rfl⟩ := ht
    obtain ⟨start, rfl⟩ := hs
    cases read with
    | nil => exact absurd hless (Nat.lt_irrefl _)
    | cons c read =>
      have hc := c.utf8Size_pos
      simp only [before, utf8Length_append, List.cons_append, utf8Length]
      omega
  depth := rfl

end Cursor

/-- Scanning with a cursor, the hooks of a builder being called in `m`. -/
abbrev ScanT (m : Type → Type) := StateT Cursor (ExceptT Stop m)

namespace ScanT

variable {m : Type → Type} [Monad m] {β : Type}

/-- Scanning that calls no hooks. -/
def scan (x : Scan β) : ScanT m β :=
  fun cursor => ExceptT.mk (pure (x.run cursor))

/-- Checks the cursor before and after a procedure. -/
def checked (whole : List Char) (strict : Bool) (x : ScanT m β) : ScanT m β := do
  let entry ← get
  if entry.Sound whole then
    let value ← x
    let exit ← get
    if entry.Advances whole strict exit then
      pure value
    else
      throw .fault
  else
    throw .fault

/-- Reads something with one more level open. -/
def nested (x : ScanT m β) : ScanT m β := do
  modify fun cursor => { cursor with depth := cursor.depth + 1 }
  let value ← x
  modify fun cursor => { cursor with depth := cursor.depth - 1 }
  pure value

end ScanT

/-- A text is what is left of another one of which something has been read. -/
def Shortens (s t : List Char) : Prop :=
  t <:+ s ∧ t.length < s.length

namespace Shortens

variable {c : Char} {s t u : List Char}

/-- Past one character a text is shorter. -/
theorem of_cons (h : t <:+ s) : Shortens (c :: s) t :=
  ⟨h.trans (List.suffix_cons c s), Nat.lt_succ_of_le h.length_le⟩

/-- A text stays shorter when more is read of it. -/
theorem trans_suffix (h : Shortens s t) (hu : u <:+ t) : Shortens s u :=
  ⟨hu.trans h.1, Nat.lt_of_le_of_lt hu.length_le h.2⟩

/-- A text that gets shorter in a second step gets shorter over both. -/
theorem of_suffix (hs : t <:+ s) (h : Shortens t u) : Shortens s u :=
  ⟨h.1.trans hs, Nat.lt_of_lt_of_le h.2 hs.length_le⟩

end Shortens

section

variable {m : Type → Type} [Monad m] {β γ : Type}

/-- A reading by position does from the text `s` on what a reader does, hooks included, and `P`
holds of the text that is left. A cursor stands before `s`, and it stands before the text that is
left with as many levels open. -/
structure Follows (whole : List Char) (depth : Nat) (s : List Char) (P : List Char → Prop)
    (y : ScanT m β) (x : ExceptT Failure m (β × List Char)) : Prop where
  run : (y.run (.before whole depth s)).run = Cursor.placed whole depth <$> x.run
  leaves : SatisfiesM (Leaves whole P) x.run

variable [LawfulMonad m] {whole s : List Char} {depth : Nat} {P Q : List Char → Prop}

/-- A scan that calls no hooks goes on where its first step ends. -/
theorem ScanT.run_scan_bind {x : Scan β} {next : β → ScanT m γ} {c c' : Cursor} {v : β}
    (h : x.run c = .ok (v, c')) : (scan x >>= next).run c = (next v).run c' := by
  have hscan : (scan x : ScanT m β).run c = pure (v, c') :=
    congrArg (fun r => ExceptT.mk (pure r)) h
  rw [StateT.run_bind, hscan, pure_bind]

namespace Follows

/-- A program that reads nothing leaves the text that it was given. -/
theorem pure {v : β} (hs : P s) : Follows whole depth s P (pure v : ScanT m β) (pure (v, s)) where
  run := by
    rw [ExceptT.run_pure, map_pure]
    rfl
  leaves := .pure hs

/-- A malformation is thrown at the place where the unread text begins. -/
theorem malformed {t : List Char} (cause : Malformation) (ht : t <:+ whole) :
    Follows whole depth s P
      (malformedAt (Cursor.before whole depth t).position cause : ScanT m β)
      (throw { cause, unread := t }) where
  run := by
    rw [ExceptT.run_throw, map_pure, malformedAt, StateT.run_throw, ExceptT.run_bind,
      ExceptT.run_throw, pure_bind]
    rfl
  leaves := .pure ht

/-- What is known of the text that is left may be weakened. -/
theorem imp {y : ScanT m β} {x : ExceptT Failure m (β × List Char)}
    (h : Follows whole depth s P y x) (hPQ : ∀ t, P t → Q t) : Follows whole depth s Q y x :=
  ⟨h.run, h.leaves.imp fun {_} hr => hr.imp hPQ⟩

/-- What follows the first step of a reading follows that of the reader. -/
theorem bind {y : ScanT m β} {x : ExceptT Failure m (β × List Char)} {next' : β → ScanT m γ}
    {next : β × List Char → ExceptT Failure m (γ × List Char)}
    (h : Follows whole depth s P y x)
    (hnext : ∀ v rest, P rest → Follows whole depth rest Q (next' v) (next (v, rest))) :
    Follows whole depth s Q (y >>= next') (x >>= next) where
  run := by
    obtain ⟨z, hz⟩ := h.leaves
    rw [StateT.run_bind, ExceptT.run_bind, h.run, ExceptT.run_bind, ← hz]
    simp only [bind_map_left, map_bind]
    congr 1
    funext r
    rcases r with ⟨f | ⟨v, rest⟩, hr⟩
    · exact (map_pure (Cursor.placed whole depth) (.error f)).symm
    · exact (hnext v rest hr).run
  leaves := by
    rw [ExceptT.run_bind]
    refine h.leaves.bind fun r hr => ?_
    rcases r with f | ⟨v, rest⟩
    · exact .pure hr
    · exact (hnext v rest hr).leaves

/-- A call of a hook reads nothing. -/
theorem hook (x : m β) (hs : P s) :
    Follows whole depth s P (liftM x : ScanT m β) (do let v ← liftM x; Pure.pure (v, s)) where
  run := by
    simp only [liftM_hook, StateT.run_monadLift, bind_pure_comp, ExceptT.run_map, ExceptT.run_lift,
      Functor.map_map]
    rfl
  leaves := by
    simp only [liftM_hook, bind_pure_comp, ExceptT.run_map, ExceptT.run_lift, Functor.map_map]
    exact SatisfiesM.map (.trivial (x := x)) fun _ => hs

/-- A scan that reads as a reader follows that reader, which calls no hooks. -/
theorem scan {x : Scan β} {y : Except Failure (β × List Char)}
    (h : Scan.Reads whole depth s P x y) :
    Follows whole depth s P (ScanT.scan x : ScanT m β) (liftM y) := by
  have hlift : (liftM y : ExceptT Failure m (β × List Char)).run = Pure.pure y := by
    cases y <;> rfl
  refine ⟨?_, ?_⟩
  · rw [hlift, map_pure, ← h.run]
    rfl
  · rw [hlift]
    exact .pure h.leaves

/-- A step that only moves the cursor. -/
theorem step {x : Scan β} {v : β} {t : List Char}
    (hx : x.run (.before whole depth s) = .ok (v, .before whole depth t)) {next : β → ScanT m γ}
    {y : ExceptT Failure m (γ × List Char)} (h : Follows whole depth t P (next v) y) :
    Follows whole depth s P (ScanT.scan x >>= next) y :=
  ⟨by rw [ScanT.run_scan_bind hx, h.run], h.leaves⟩

/-- Looking at the cursor is no step of the reader. -/
theorem get_bind {next : Cursor → ScanT m γ} {y : ExceptT Failure m (γ × List Char)}
    (h : Follows whole depth s P (next (.before whole depth s)) y) :
    Follows whole depth s P (get >>= next) y :=
  ⟨by rw [StateT.run_bind, StateT.run_get, pure_bind, h.run], h.leaves⟩

/-- A reading goes on by whether something came next. -/
theorem ite {x : Scan Bool} {taken : Option (List Char)} (h : Scan.Takes whole s x taken)
    {y z : ScanT m β} {r : ExceptT Failure m (β × List Char)}
    (hsome : ∀ rest, taken = some rest → Follows whole depth rest P y r)
    (hnone : taken = none → Follows whole depth s P z r) :
    Follows whole depth s P (ScanT.scan x >>= fun b => if b then y else z) r := by
  have hx := h depth
  cases taken with
  | some rest => exact step hx (hsome rest rfl)
  | none => exact step hx (hnone rfl)

/-- What is read with one more level open leaves no more levels open. -/
theorem nested {y : ScanT m β} {x : ExceptT Failure m (β × List Char)}
    (h : Follows whole (depth + 1) s P y x) : Follows whole depth s P (ScanT.nested y) x where
  run := by
    have hopen : Cursor.before whole (depth + 1) s =
        { Cursor.before whole depth s with depth := (Cursor.before whole depth s).depth + 1 } := rfl
    rw [ScanT.nested, StateT.run_bind, StateT.run_modify, pure_bind]
    dsimp only
    rw [StateT.run_bind, ← hopen, ExceptT.run_bind, h.run, bind_map_left, map_eq_pure_bind]
    congr 1
    funext r
    rcases r with f | ⟨v, rest⟩
    · rfl
    · simp only [Cursor.placed]
      rw [StateT.run_bind, StateT.run_modify, pure_bind]
      rfl
  leaves := h.leaves

/-- The checks of a procedure do not fail when what it leaves is an end of the text, and a shorter
one if it is strict. -/
theorem checked {strict : Bool} {y : ScanT m β} {x : ExceptT Failure m (β × List Char)}
    (h : Follows whole depth s P y x) (hdepth : depth ≤ nestingLimit) (hs : s <:+ whole)
    (hP : ∀ t, P t → t <:+ s ∧ (strict = true → t.length < s.length)) :
    Follows whole depth s P (ScanT.checked whole strict y) x where
  run := by
    obtain ⟨z, hz⟩ := h.leaves
    rw [ScanT.checked, StateT.run_bind, StateT.run_get, pure_bind]
    dsimp only
    rw [if_pos (Cursor.sound_before hdepth hs), StateT.run_bind, ExceptT.run_bind, h.run, ← hz]
    simp only [bind_map_left, Functor.map_map]
    rw [map_eq_pure_bind]
    congr 1
    funext r
    rcases r with ⟨f | ⟨v, rest⟩, hr⟩
    · rfl
    · obtain ⟨hrest, hstrict⟩ := hP rest hr
      simp only [Cursor.placed]
      rw [StateT.run_bind, StateT.run_get, pure_bind]
      dsimp only
      rw [if_pos (Cursor.advances_before hdepth hs hrest hstrict)]
      rfl
  leaves := h.leaves

/-- The checks of a strict procedure. -/
theorem checked_shortens {y : ScanT m β} {x : ExceptT Failure m (β × List Char)}
    (h : Follows whole depth s (Shortens s) y x) (hdepth : depth ≤ nestingLimit)
    (hs : s <:+ whole) : Follows whole depth s (Shortens s) (ScanT.checked whole true y) x :=
  h.checked hdepth hs fun _ ht => ⟨ht.1, fun _ => ht.2⟩

end Follows

end

end ProximityQuery
