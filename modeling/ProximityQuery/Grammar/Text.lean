import ProximityQuery.Grammar.Clause

/-!
# Query texts

A whole text is one level with nothing after it. The hooks of the builder are called in the order in
which the grammar completes its clauses, also when the text turns out to be malformed further on.
-/

namespace ProximityQuery

open Grammar

/-- Where a text is malformed, in bytes from its start, and why. -/
structure Malformed where
  position : Nat
  cause : Malformation
deriving DecidableEq, Repr

/-- The malformation of a whole text that a failure is. -/
def Failure.located (whole : List Char) (f : Failure) : Malformed :=
  { position := f.position whole, cause := f.cause }

variable {m : Type → Type} [Monad m] {α : Type}

/-- Reads a whole text about `field`. -/
def Grammar.readWhole (b : Builder m α) (d : Dialect) (field : String) (s : List Char) :
    ExceptT Failure m α := do
  let (clause, rest) ← readLevel b d.operator (readPrimary b d nestingLimit) field s
  match rest with
  | [] => pure clause
  | _ => throw { cause := .unexpectedClose, unread := rest }

/-- The meaning of a text, or where it is malformed. A hook that fails ends the run before any
malformation is reported. -/
def Builder.ofText (b : Builder m α) (d : Dialect) (field text : String) :
    m (Except Malformed α) :=
  (readWhole b d field text.toList).adapt (Failure.located text.toList)

end ProximityQuery
