import FormulaEngine.Token

/-! Cutting a text into tokens in one pass. Blanks are dropped without ending
the token they stand in. Every other character either continues the pending
token or ends it and starts the next one, and which of the two happens depends
only on the shape of the pending token and on the character: symbols are never
continued, a numeral ends before the first character that would leave it no
numeral, and a word runs up to the next symbol. A lone point is not a numeral
yet: a digit makes it one and anything else makes it a word. -/

namespace FormulaEngine.Token

/-- What the characters of a token read so far make of it. -/
inductive Shape
  | symbol
  /-- Digits only. -/
  | integer
  /-- Digits and one point, in any order, with at least one digit. -/
  | decimal
  /-- A point and nothing else. -/
  | point
  | word
  deriving DecidableEq, Repr

namespace Shape

/-- The shape of a token of one character. -/
def ofChar (c : Char) : Shape :=
  if isSymbolChar c then symbol
  else if c.isDigit then integer
  else if c = '.' then point
  else word

/-- The shape after one more character, or nothing if the character cannot
continue the token. -/
def extend? (shape : Shape) (c : Char) : Option Shape :=
  if isSymbolChar c then none
  else match shape with
  | symbol => none
  | integer => if c.isDigit then some integer else if c = '.' then some decimal else none
  | decimal => if c.isDigit then some decimal else none
  | point => if c.isDigit then some decimal else some word
  | word => some word

end Shape

/-- The tokens completed so far and the pending one with its shape. -/
structure Scan where
  completed : Array String := #[]
  pending : Option (Shape × String) := none

namespace Scan

/-- Reads one character. -/
def step (scan : Scan) (c : Char) : Scan :=
  if isBlank c then scan
  else match scan.pending with
  | none => { scan with pending := some (.ofChar c, String.singleton c) }
  | some (shape, text) =>
    match shape.extend? c with
    | some next => { scan with pending := some (next, text.push c) }
    | none => ⟨scan.completed.push text, some (.ofChar c, String.singleton c)⟩

/-- All tokens, the pending one included. -/
def tokens (scan : Scan) : List String :=
  match scan.pending with
  | none => scan.completed.toList
  | some (_, text) => (scan.completed.push text).toList

end Scan

end FormulaEngine.Token

namespace FormulaEngine

/-- The tokens of a text, in order. -/
def tokenize (text : String) : List String :=
  (text.foldl Token.Scan.step {}).tokens

/-- A text that is read once: draining it takes all tokens that are left. -/
structure Source where
  remaining : String

/-- The tokens left in the source, and the source without them. -/
def Source.drain (source : Source) : List String × Source :=
  (tokenize source.remaining, ⟨""⟩)

end FormulaEngine
