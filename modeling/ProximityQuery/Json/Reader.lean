import ProximityQuery.Json.Number

/-!
# Reading JSON

A text is cut into tokens character by character, and the tokens are put together by a machine that
holds the containers part way through in a list of frames. Both are folds, so they end on every
text and no nesting is too deep for them. Only a space, a tab, a line feed and a carriage return
may stand between tokens, and nothing may stand after the value.
-/

namespace ProximityQuery.Json

/-- A token of a JSON text. -/
inductive Token
  | openArray
  | closeArray
  | openObject
  | closeObject
  | comma
  | colon
  | string (body : String)
  /-- A number, a truth value or null. -/
  | literal (value : Json)
deriving Repr

/-- Where the cutting into tokens stands; what has been read of a token is held backwards. -/
inductive Mode
  | gap
  | bare (seen : List Char)
  | quoted (seen : List Char)
  /-- After a backslash in a string. -/
  | escape (seen : List Char)
deriving Repr

/-- Whether a character may stand in a number or a word. -/
def isBare (c : Char) : Bool :=
  c.isAlphanum || c = '+' || c = '-' || c = '.'

/-- The token that a number or a word is. -/
def literal? (s : List Char) : Option Token :=
  if s = ['n', 'u', 'l', 'l'] then some (.literal .null)
  else if s = ['t', 'r', 'u', 'e'] then some (.literal (.bool true))
  else if s = ['f', 'a', 'l', 's', 'e'] then some (.literal (.bool false))
  else (numeral? s).map fun _ => .literal (.number (String.ofList s))

/-- The token of a string with a well-formed body. -/
def string? (body : List Char) : Option Token :=
  (codes? body).map fun _ => .string (String.ofList body)

/-- What the first character after a gap begins or is. -/
def begin? (c : Char) : Option (List Token × Mode) :=
  match c with
  | ' ' | '\t' | '\n' | '\r' => some ([], .gap)
  | '[' => some ([.openArray], .gap)
  | ']' => some ([.closeArray], .gap)
  | '\x7b' => some ([.openObject], .gap)
  | '\x7d' => some ([.closeObject], .gap)
  | ',' => some ([.comma], .gap)
  | ':' => some ([.colon], .gap)
  | '"' => some ([], .quoted [])
  | c => if isBare c then some ([], .bare [c]) else none

/-- The tokens that a character completes, and where the cutting stands after it. -/
def Mode.step? (mode : Mode) (c : Char) : Option (List Token × Mode) :=
  match mode with
  | .gap => begin? c
  | .bare seen =>
    if isBare c then some ([], .bare (c :: seen))
    else do
      let token ← literal? seen.reverse
      let (tokens, mode) ← begin? c
      pure (token :: tokens, mode)
  | .quoted seen =>
    if c = '"' then (string? seen.reverse).map fun token => ([token], .gap)
    else if c = '\\' then some ([], .escape seen)
    else some ([], .quoted (c :: seen))
  | .escape seen => some ([], .quoted (c :: '\\' :: seen))

/-- The tokens of a text. -/
def tokensFrom? : Mode → List Char → Option (List Token)
  | .gap, [] => some []
  | .bare seen, [] => (literal? seen.reverse).map ([·])
  | .quoted _, [] | .escape _, [] => none
  | mode, c :: s => do
    let (tokens, mode) ← mode.step? c
    let rest ← tokensFrom? mode s
    pure (tokens ++ rest)

/-- A container part way through; what is complete is held backwards. -/
inductive Frame
  | array (items : List Json)
  /-- The complete members and the name of the next. -/
  | object (members : List (String × Json)) (name : String)

/-- What the machine has read and what it waits for. -/
inductive Progress
  /-- A value comes next. -/
  | value (outer : List Frame)
  /-- The first value of an array comes next, or its end. -/
  | firstItem (outer : List Frame)
  /-- The first name of an object comes next, or its end. -/
  | firstName (outer : List Frame)
  /-- A name comes next. -/
  | name (outer : List Frame) (members : List (String × Json))
  /-- The colon after a name comes next. -/
  | colon (outer : List Frame) (members : List (String × Json)) (name : String)
  /-- A value is complete. -/
  | complete (outer : List Frame) (value : Json)

/-- The progress after the first token of a value. -/
def Progress.start? (outer : List Frame) : Token → Option Progress
  | .openArray => some (.firstItem outer)
  | .openObject => some (.firstName outer)
  | .string body => some (.complete outer (.string body))
  | .literal v => some (.complete outer v)
  | .closeArray | .closeObject | .comma | .colon => none

/-- The progress after a token. -/
def Progress.step? : Progress → Token → Option Progress
  | .value outer, token => start? outer token
  | .firstItem outer, .closeArray => some (.complete outer (.array []))
  | .firstItem outer, token => start? (.array [] :: outer) token
  | .firstName outer, .closeObject => some (.complete outer (.object []))
  | .firstName outer, .string body => some (.colon outer [] body)
  | .name outer members, .string body => some (.colon outer members body)
  | .colon outer members body, .colon => some (.value (.object members body :: outer))
  | .complete (.array items :: outer) v, .comma => some (.value (.array (v :: items) :: outer))
  | .complete (.array items :: outer) v, .closeArray =>
    some (.complete outer (.array (v :: items).reverse))
  | .complete (.object members body :: outer) v, .comma =>
    some (.name outer ((body, v) :: members))
  | .complete (.object members body :: outer) v, .closeObject =>
    some (.complete outer (.object ((body, v) :: members).reverse))
  | _, _ => none

/-- Reads a JSON text. -/
def ofText? (s : String) : Option Json := do
  let tokens ← tokensFrom? .gap s.toList
  match ← tokens.foldlM Progress.step? (.value []) with
  | .complete [] value => some value
  | _ => none

end ProximityQuery.Json
