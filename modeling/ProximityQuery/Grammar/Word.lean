import ProximityQuery.Text.Blank

/-!
# Words

A bare word runs up to a blank or a special character; a backslash takes the character after it
into the word, whatever it is. A word is kept as its letters, plain or escaped, so that the word as
written, the word it means and the wildcards in it are three readings of one list. A keyword counts
only where it stands alone.
-/

namespace ProximityQuery.Grammar

/-- The characters with a meaning of their own. -/
def isSpecial (c : Char) : Bool :=
  ['(', ')', '"', ':', '^', '~', '[', ']', '{', '}'].contains c

/-- Whether a character that is not escaped ends a word. -/
def endsWord (c : Char) : Bool :=
  isBlank c || isSpecial c

/-- A character of a word, and whether a backslash stands before it. -/
inductive Letter
  | plain (c : Char)
  | escaped (c : Char)
deriving DecidableEq, Repr

/-- The character that a letter means. -/
def Letter.char : Letter → Char
  | .plain c | .escaped c => c

/-- The letter as it is written. -/
def Letter.written : Letter → List Char
  | .plain c => [c]
  | .escaped c => ['\\', c]

/-- Whether a letter is a wildcard: a star or a question mark that is not escaped. -/
def Letter.isWild : Letter → Bool
  | .plain c => c = '*' || c = '?'
  | .escaped _ => false

/-- The letters at the head of a text, and the rest. A backslash at the very end is read and adds no
letter. -/
def readWord : List Char → List Letter × List Char
  | [] => ([], [])
  | c :: s =>
    if c = '\\' then
      match s with
      | [] => ([], [])
      | d :: s => (readWord s).map (.escaped d :: ·) id
    else if endsWord c then ([], c :: s)
    else (readWord s).map (.plain c :: ·) id

/-- A backslash takes the character after it into the word, whatever that is. -/
theorem readWord_escaped (d : Char) (s : List Char) :
    readWord ('\\' :: d :: s) = (.escaped d :: (readWord s).1, (readWord s).2) := rfl

/-- A character that ends no word belongs to the word. -/
theorem readWord_plain {c : Char} (hc : c ≠ '\\') (h : endsWord c = false) (s : List Char) :
    readWord (c :: s) = (.plain c :: (readWord s).1, (readWord s).2) := by
  rw [readWord.eq_def]
  simp [hc, h, Prod.map]

/-- A word is read up to the character that ends it. -/
theorem readWord_end {c : Char} (h : endsWord c = true) (s : List Char) :
    readWord (c :: s) = ([], c :: s) := by
  have hc : c ≠ '\\' := fun e => absurd (e ▸ h) (by decide)
  rw [readWord.eq_def]
  simp [hc, h]

/-- The rest of a text after the word at its head, if it starts with that word. -/
def after? : (word s : List Char) → Option (List Char)
  | [], s => some s
  | _ :: _, [] => none
  | w :: ws, c :: s => if w = c then after? ws s else none

/-- Behind a given word stands the rest of the text. -/
theorem after?_append (word s : List Char) : after? word (word ++ s) = some s := by
  induction word with
  | nil => rfl
  | cons w ws ih => simpa [after?] using ih

/-- A text that goes on behind a given word begins with that word. -/
theorem eq_append_of_after? {word s rest : List Char} (h : after? word s = some rest) :
    s = word ++ rest := by
  induction word generalizing s with
  | nil => simpa [after?] using h
  | cons w ws ih =>
    cases s with
    | nil => simp [after?] at h
    | cons c s =>
      by_cases hc : w = c
      · simp only [after?, hc, if_true] at h
        simp [hc, ih h]
      · simp [after?, hc] at h

/-- Whether a keyword may end before this text: at the end, a blank, an opening parenthesis or a
quote. -/
def freesKeyword : List Char → Bool
  | [] => true
  | c :: _ => isBlank c || c = '(' || c = '"'

/-- The rest of a text after a keyword at its head that stands alone. -/
def keyword? (word s : List Char) : Option (List Char) :=
  (after? word s).filter freesKeyword

end ProximityQuery.Grammar
