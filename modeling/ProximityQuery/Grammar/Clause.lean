import ProximityQuery.Grammar.Level
import ProximityQuery.Grammar.Phrase
import ProximityQuery.Grammar.Range

/-!
# Clauses

A clause starts with a group, a phrase, a range or a word. A group and a field before a clause each
open a nesting level, and `readPrimary` recurses on the number of levels that may still be opened,
so no nesting of the text makes it run on.
-/

namespace ProximityQuery.Grammar

/-- What the reading of a query depends on besides its text. -/
structure Dialect where
  /-- How clauses without a sign combine. -/
  operator : Operator := .or
  /-- The edit distance of a word with a bare tilde. -/
  fuzzyMaxEdits : UInt32 := 2
deriving DecidableEq, Repr

/-- The number of nesting levels that may be open at once. -/
def nestingLimit : Nat := 128

variable {m : Type → Type} [Monad m] {α : Type}

/-- Reads the group at the head of `s`, whose opening parenthesis has the text `inside` after it.
`below` reads clauses one level down, if there is one. -/
def readGroup (b : Builder m α) (op : Operator) (below : Option (Primary m α)) (field : String)
    (s inside : List Char) : ExceptT Failure m (α × List Char) :=
  match below with
  | none => throw { cause := .groupsTooDeep, unread := s }
  | some primary => do
    let (group, rest) ← readLevel b op primary field inside
    match rest with
    | ')' :: rest => pure (group, rest)
    | _ => throw { cause := .missingClose, unread := rest }

/-- Whether a field may not be followed by this text: the end or a blank. -/
def lacksValue : List Char → Bool
  | [] => true
  | c :: _ => isBlank c

/-- Reads the clause `value` after the name of its field; the name is at the head of `s`. -/
def readFieldValue (below : Option (Primary m α)) (field : String) (s value : List Char) :
    ExceptT Failure m (α × List Char) :=
  if lacksValue value then throw { cause := .missingValue, unread := value }
  else
    match below with
    | none => throw { cause := .fieldsTooDeep, unread := s }
    | some primary => primary field value

/-- Reads the word at the head of a text: the name of a field if a colon follows, and otherwise a
fuzzy term, a pattern or a term. A word with wildcards names no field. -/
def readWordClause (b : Builder m α) (d : Dialect) (below : Option (Primary m α))
    (field : String) (s : List Char) : ExceptT Failure m (α × List Char) :=
  let (letters, rest) := readWord s
  let raw := String.ofList (letters.flatMap Letter.written)
  let text := String.ofList (letters.map Letter.char)
  if letters.isEmpty then throw { cause := .missingTerm, unread := s }
  else
    match letters.any Letter.isWild, rest with
    | false, ':' :: value => readFieldValue below text s value
    | _, '~' :: rest => do
      let (edits, rest) ← readOptional .editDistance d.fuzzyMaxEdits rest
      let clause ← b.multiTerm field (.fuzzy text edits)
      pure (clause, rest)
    | true, _ => do
      let clause ← b.multiTerm field (.wildcard raw)
      pure (clause, rest)
    | false, _ => do
      let clause ← b.term field text
      pure (clause, rest)

/-- Reads the start of a clause. -/
def readStart (b : Builder m α) (d : Dialect) (below : Option (Primary m α)) : Primary m α :=
  fun field s =>
    match s with
    | '(' :: inside => readGroup b d.operator below field s inside
    | '"' :: inside => readPhrase b field s inside
    | '[' :: inside => readRange b field true s inside
    | '{' :: inside => readRange b field false s inside
    | _ => readWordClause b d below field s

/-- Reads the start of a clause when `levels` more nesting levels may be opened. -/
def readPrimary (b : Builder m α) (d : Dialect) : (levels : Nat) → Primary m α
  | 0 => readStart b d none
  | levels + 1 => readStart b d (some (readPrimary b d levels))

end ProximityQuery.Grammar
