import ProximityQuery.Grammar.Builder
import ProximityQuery.Grammar.Occurs
import ProximityQuery.Grammar.Quantity
import ProximityQuery.Grammar.Word

/-!
# Levels

A level is the text of a whole query or of a group: clauses one after the other, up to a closing
parenthesis or the end. What a clause starts with is left to a reader for the nesting level below.
A level of one clause with nothing written before it is that clause; any other level is a boolean
combination.
-/

namespace ProximityQuery.Grammar

/-- Reads the start of a clause about a field. -/
abbrev Primary (m : Type → Type) (α : Type) :=
  (field : String) → List Char → ExceptT Failure m (α × List Char)

/-- A clause and what is written before it. -/
structure Item (α : Type) where
  mark : Mark
  clause : α
deriving Repr

/-- Whether a level ends here. -/
def endsLevel : List Char → Bool
  | [] => true
  | c :: _ => c = ')'

/-- Reads a conjunction, as a word or as a doubled sign. -/
def readConjunction (s : List Char) : Option Conjunction × List Char :=
  match s with
  | '&' :: '&' :: rest => (some .and, rest)
  | '|' :: '|' :: rest => (some .or, rest)
  | _ =>
    match keyword? ['A', 'N', 'D'] s with
    | some rest => (some .and, rest)
    | none =>
      match keyword? ['O', 'R'] s with
      | some rest => (some .or, rest)
      | none => (none, s)

/-- Reads the sign of a clause. -/
def readModifier (s : List Char) : Option Modifier × List Char :=
  match s with
  | '+' :: rest => (some .required, rest)
  | '-' :: rest => (some .prohibited, rest)
  | '!' :: rest => (some .prohibited, rest)
  | _ =>
    match keyword? ['N', 'O', 'T'] s with
    | some rest => (some .prohibited, rest)
    | none => (none, s)

variable {m : Type → Type} [Monad m] {α : Type}

/-- Reads the boost after a clause. -/
def readBoost (b : Builder m α) (clause : α) (s : List Char) : ExceptT Failure m (α × List Char) :=
  match s with
  | '^' :: rest => do
    let (factor, rest) ← readQuantity .boost Decimal.float32? rest
    let boosted ← b.boost clause factor
    pure (boosted, rest)
  | _ => pure (clause, s)

/-- Reads a clause with what is written before it, blanks allowed between the two. -/
def readItem (b : Builder m α) (primary : Primary m α) (field : String) (s : List Char) :
    ExceptT Failure m (Item α × List Char) :=
  let (conjunction, rest) := readConjunction s
  let rest := skipBlanks rest
  if conjunction.isSome && endsLevel rest then
    throw { cause := .missingClause, unread := rest }
  else
    let (modifier, rest) := readModifier rest
    do
    let (start, rest) ← primary field (skipBlanks rest)
    let (clause, rest) ← readBoost b start rest
    pure ({ mark := { conjunction, modifier }, clause }, rest)

/-- Reads clauses up to the end of the level, at most `bound` of them. Each takes a character at
least, so the length of the text is bound enough. -/
def readItems (b : Builder m α) (primary : Primary m α) (field : String) :
    (bound : Nat) → List Char → ExceptT Failure m (List (Item α) × List Char)
  | 0, s => pure ([], s)
  | bound + 1, s =>
    let s := skipBlanks s
    if endsLevel s then pure ([], s)
    else do
      let (item, rest) ← readItem b primary field s
      let (items, rest) ← readItems b primary field bound rest
      pure (item :: items, rest)

/-- The clauses of a level, each in its part. -/
def clausesOf (op : Operator) (items : List (Item α)) : List (α × Occur) :=
  (items.map Item.clause).zip (occurs op (items.map Item.mark))

/-- Builds the clause of a level. -/
def buildLevel (b : Builder m α) (op : Operator) (items : List (Item α)) : m α :=
  match items with
  | [item] => if item.mark.isBare then pure item.clause else b.boolean (clausesOf op [item])
  | _ => b.boolean (clausesOf op items)

/-- A level is unwrapped only when it is a single bare clause. -/
theorem buildLevel_eq_boolean (b : Builder m α) (op : Operator) {items : List (Item α)}
    (h : ∀ mark, items.map Item.mark = [mark] → mark.isBare = false) :
    buildLevel b op items = b.boolean (clausesOf op items) := by
  match items with
  | [] => rfl
  | [item] => simp [buildLevel, h item.mark rfl]
  | _ :: _ :: _ => rfl

/-- Reads a level. -/
def readLevel (b : Builder m α) (op : Operator) (primary : Primary m α) (field : String)
    (s : List Char) : ExceptT Failure m (α × List Char) := do
  let (items, rest) ← readItems b primary field s.length s
  let clause ← ExceptT.lift (buildLevel b op items)
  pure (clause, rest)

end ProximityQuery.Grammar
