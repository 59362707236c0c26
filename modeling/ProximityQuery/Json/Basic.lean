/-!
# JSON values

A value of a JSON text, with its literals as they are written: a number is its literal and a string
the text between its quotes, escapes kept. What a literal means is asked when it is needed, so a
value that nobody asks about may hold a string that means nothing. Members keep their order and
may repeat a name.
-/

namespace ProximityQuery

/-- A JSON value. -/
inductive Json
  | null
  | bool (value : Bool)
  | number (literal : String)
  | string (body : String)
  | array (items : List Json)
  /-- The members with the bodies of their names. -/
  | object (members : List (String × Json))
deriving Repr

namespace Json

/-- The value of a hexadecimal digit. -/
def hexDigit? (c : Char) : Option Nat :=
  if '0' ≤ c ∧ c ≤ '9' then some (c.toNat - '0'.toNat)
  else if 'a' ≤ c ∧ c ≤ 'f' then some (c.toNat - 'a'.toNat + 10)
  else if 'A' ≤ c ∧ c ≤ 'F' then some (c.toNat - 'A'.toNat + 10)
  else none

/-- The character that a backslash with this letter after it stands for. -/
def shortEscape? : Char → Option Char
  | '"' => some '"'
  | '\\' => some '\\'
  | '/' => some '/'
  | 'b' => some '\x08'
  | 'f' => some '\x0c'
  | 'n' => some '\n'
  | 'r' => some '\r'
  | 't' => some '\t'
  | _ => none

/-- The code numbers in the body of a string: that of each character, and the one written in each
escape. Nothing when an escape is malformed or a control character is not escaped. -/
def codes? : List Char → Option (List Nat)
  | [] => some []
  | '\\' :: 'u' :: a :: b :: c :: d :: s => do
    let code := 4096 * (← hexDigit? a) + 256 * (← hexDigit? b) + 16 * (← hexDigit? c) + (← hexDigit? d)
    let rest ← codes? s
    pure (code :: rest)
  | '\\' :: e :: s => do
    let char ← shortEscape? e
    let rest ← codes? s
    pure (char.toNat :: rest)
  | c :: s => do
    if c = '\\' ∨ c.toNat < 0x20 then none
    else
      let rest ← codes? s
      pure (c.toNat :: rest)

/-- The characters with the given code numbers; the two halves of a character beyond the first
65536 have to stand together. -/
def characters? : List Nat → Option (List Char)
  | [] => some []
  | code :: rest =>
    if 0xD800 ≤ code ∧ code < 0xDC00 then
      match rest with
      | low :: rest =>
        if 0xDC00 ≤ low ∧ low < 0xE000 then
          let full := 0x10000 + (code - 0xD800) * 0x400 + (low - 0xDC00)
          (characters? rest).map (Char.ofNat full :: ·)
        else none
      | [] => none
    else if 0xDC00 ≤ code ∧ code < 0xE000 then none
    else (characters? rest).map (Char.ofNat code :: ·)

/-- The text that the body of a string means. -/
def meaning? (body : String) : Option String :=
  ((codes? body.toList).bind characters?).map String.ofList

/-- A lower-case hexadecimal digit. -/
def hexChar (n : Nat) : Char := Nat.digitChar n

/-- A character in the body of a string, escaped only where it has to be. -/
def escapeChar (c : Char) : List Char :=
  match c with
  | '"' => ['\\', '"']
  | '\\' => ['\\', '\\']
  | '\x08' => ['\\', 'b']
  | '\x0c' => ['\\', 'f']
  | '\n' => ['\\', 'n']
  | '\r' => ['\\', 'r']
  | '\t' => ['\\', 't']
  | c =>
    if c.toNat < 0x20 then ['\\', 'u', '0', '0', hexChar (c.toNat / 16), hexChar (c.toNat % 16)]
    else [c]

/-- The body of the string that means a text. -/
def bodyOf (text : String) : String :=
  String.ofList (text.toList.flatMap escapeChar)

/-- The string that means a text. -/
def text (s : String) : Json := .string (bodyOf s)

/-- The number that a natural number is written as. -/
def nat (n : Nat) : Json := .number (toString n)

/-- The object with the given names and values, in this order. -/
def ofMembers (members : List (String × Json)) : Json :=
  .object (members.map fun (name, value) => (bodyOf name, value))

/-- The text that a string means. -/
def text? : Json → Option String
  | .string body => meaning? body
  | _ => none

/-- The truth value. -/
def bool? : Json → Option Bool
  | .bool b => some b
  | _ => none

/-- The items of an array. -/
def array? : Json → Option (List Json)
  | .array items => some items
  | _ => none

/-- The members of an object under the texts that their names mean. -/
def object? : Json → Option (List (String × Json))
  | .object members => members.mapM fun (body, value) => (meaning? body).map (·, value)
  | _ => none

end Json

end ProximityQuery
