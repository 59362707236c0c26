import ProximityQuery.Grammar.Failure
import ProximityQuery.Term

/-!
# Builders

The grammar does not decide what a clause is. Every construct it recognises is handed to a builder,
so that one grammar serves every reading of a query. A hook runs in a monad of the builder's own,
which may keep a state and may fail; it is called as soon as its construct is complete, and what is
malformed further on is only found afterwards.
-/

namespace ProximityQuery

/-- What each construct means, in a monad `m` that may keep a state and may fail. -/
structure Builder (m : Type → Type) (α : Type) where
  /-- A bare word, its escapes removed. -/
  term : (field text : String) → m α
  /-- A pattern, a word with an edit distance, or a range. -/
  multiTerm : (field : String) → MultiTerm → m α
  /-- The text between two quotes as it is written, and the slop after it. -/
  phrase : (field raw : String) → (slop : UInt32) → m α
  /-- The clauses of one level, with the parts they play. -/
  boolean : List (α × Occur) → m α
  /-- A clause with the number after its `^`. -/
  boost : α → Float32 → m α

end ProximityQuery
