/-!
# Blanks

The characters that separate the words of a query: those with the Unicode property
`White_Space`, twenty-five in all.
-/

namespace ProximityQuery

/-- Whether a character has the Unicode property `White_Space`. -/
def isBlank (c : Char) : Bool :=
  let n := c.toNat
  (9 ≤ n && n ≤ 13) || n = 0x20 || n = 0x85 || n = 0xA0 || n = 0x1680 ||
    (0x2000 ≤ n && n ≤ 0x200A) || n = 0x2028 || n = 0x2029 || n = 0x202F || n = 0x205F ||
    n = 0x3000

/-- Drops the blanks at the head of a text. -/
def skipBlanks (s : List Char) : List Char :=
  s.dropWhile isBlank

/-- Nothing is skipped at a character that is no blank. -/
theorem skipBlanks_cons_of_not_blank {c : Char} (h : isBlank c = false) (s : List Char) :
    skipBlanks (c :: s) = c :: s := by
  simp [skipBlanks, h]

/-- What is left when blanks are skipped is an end piece of the text. -/
theorem skipBlanks_suffix (s : List Char) : skipBlanks s <:+ s :=
  List.dropWhile_suffix _

end ProximityQuery
