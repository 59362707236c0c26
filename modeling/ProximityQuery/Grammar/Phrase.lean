import ProximityQuery.Grammar.Builder
import ProximityQuery.Grammar.Quantity

/-!
# Phrases

A phrase stands between two quotes. Inside it a backslash keeps the character after it from closing
the phrase; both stay in the raw text, which is read again later.
-/

namespace ProximityQuery.Grammar

/-- The raw text up to the closing quote and the rest after it, or nothing when no quote closes. -/
def readQuoted : List Char → Option (List Char × List Char)
  | [] => none
  | c :: s =>
    if c = '"' then some ([], s)
    else if c = '\\' then
      match s with
      | [] => none
      | d :: s => (readQuoted s).map fun (raw, rest) => ('\\' :: d :: raw, rest)
    else (readQuoted s).map fun (raw, rest) => (c :: raw, rest)

/-- What was read stands before the closing quote, and the rest after it. -/
theorem eq_append_of_readQuoted {s raw rest : List Char} (h : readQuoted s = some (raw, rest)) :
    s = raw ++ '"' :: rest := by
  fun_induction readQuoted s generalizing raw with
  | case1 => simp at h
  | case2 s => simp_all
  | case3 => simp at h
  | case4 d s _ ih =>
    obtain ⟨⟨r, t⟩, hr, he⟩ := Option.map_eq_some_iff.1 h
    simp only [Prod.mk.injEq] at he
    obtain ⟨rfl, rfl⟩ := he
    simp [ih hr]
  | case5 c s _ _ ih =>
    obtain ⟨⟨r, t⟩, hr, he⟩ := Option.map_eq_some_iff.1 h
    simp only [Prod.mk.injEq] at he
    obtain ⟨rfl, rfl⟩ := he
    simp [ih hr]

/-- Reads the slop after a phrase: a tilde with a whole number, nothing when either is missing. -/
def readSlop : List Char → Except Failure (UInt32 × List Char)
  | [] => .ok (0, [])
  | c :: s => if c = '~' then readOptional .slop 0 s else .ok (0, c :: s)

/-- Reads the phrase at the head of `s`, whose opening quote has the text `inside` after it. -/
def readPhrase {m : Type → Type} [Monad m] {α : Type} (b : Builder m α) (field : String)
    (s inside : List Char) : ExceptT Failure m (α × List Char) :=
  match readQuoted inside with
  | none => throw { cause := .unterminatedPhrase, unread := s }
  | some (raw, rest) => do
    let (slop, rest) ← readSlop rest
    let clause ← b.phrase field (String.ofList raw) slop
    pure (clause, rest)

end ProximityQuery.Grammar
