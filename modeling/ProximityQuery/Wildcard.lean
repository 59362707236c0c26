/-!
# Wildcard patterns

A pattern is a list of units: a star matches any run of characters, a question mark any one
character, both short of a line feed, and every other unit matches one character exactly. A
backslash makes a unit of the character after it; at the very end it stands for nothing. A pattern
matches a text as a whole.

Matching works on rows: the row of a list of units says, for each end piece of the text from the
longest to the empty one, whether the units match it. Each unit turns the row of the units after it
into its own, so the work is the product of the two lengths.
-/

namespace ProximityQuery.Wildcard

/-- A unit of a pattern. -/
inductive Piece
  /-- Any run of characters without a line feed. -/
  | run
  /-- Any one character but a line feed. -/
  | any
  /-- This character. -/
  | exactly (c : Char)
deriving DecidableEq, Repr

/-- The unit that a character stands for when no backslash is before it. -/
def Piece.ofChar (c : Char) : Piece :=
  if c = '*' then .run else if c = '?' then .any else .exactly c

/-- The units of a pattern. -/
def pieces : List Char → List Piece
  | [] => []
  | c :: s =>
    if c = '\\' then
      match s with
      | [] => []
      | d :: s => .exactly d :: pieces s
    else .ofChar c :: pieces s

/-- Whether a unit that takes one character takes this one. -/
def Piece.admits : Piece → Char → Bool
  | .run, _ => false
  | .any, c => c ≠ '\n'
  | .exactly d, c => c = d

/-- The row of the empty pattern: only the empty end piece is matched. -/
def emptyRow (text : List Char) : List Bool :=
  text.map (fun _ => false) ++ [true]

/-- The row of a unit before a pattern, from the row of that pattern. -/
def prependRow (p : Piece) : (text : List Char) → (row : List Bool) → List Bool
  | c :: text, here :: row =>
    let later := prependRow p text row
    match p with
    | .run => (here || (c ≠ '\n' && later.headD false)) :: later
    | _ => (p.admits c && row.headD false) :: later
  | [], row =>
    match p with
    | .run => row
    | _ => [false]
  | _ :: _, [] => []

/-- The row of a pattern. -/
def matchRow (text : List Char) (ps : List Piece) : List Bool :=
  ps.foldr (fun p row => prependRow p text row) (emptyRow text)

/-- Whether a pattern matches a text. -/
def isMatch (pattern text : String) : Bool :=
  (matchRow text.toList (pieces pattern.toList)).headD false

end ProximityQuery.Wildcard
