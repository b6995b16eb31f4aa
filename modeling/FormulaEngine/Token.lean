import FormulaEngine.Operator

/-! Tokens are texts. What a token means to the grammar is its kind, which is
read off the text alone: seven one-character symbols, decimal numerals, and
names, which are all other texts. No list of tokens is malformed, so the
grammar can be asked about any list of texts. -/

namespace FormulaEngine.Token

/-- Blanks are dropped wherever they stand. They are these four characters and
no other kind of white space. -/
def isBlank (c : Char) : Bool := c = ' ' || c = '\t' || c = '\n' || c = '\r'

/-- The characters that are tokens of their own. -/
def isSymbolChar (c : Char) : Bool :=
  c = '+' || c = '-' || c = '*' || c = '/' || c = '(' || c = ')' || c = ','

/-- A decimal numeral: ASCII digits with at most one point and at least one
digit. It has no sign and no exponent. -/
def isNumeralChars (cs : List Char) : Bool :=
  cs.all (fun c => c.isDigit || c = '.') && cs.any Char.isDigit && cs.count '.' ≤ 1

def isNumeral (text : String) : Bool := isNumeralChars text.toList

/-- A name that can be written in a formula: it is not empty, not a numeral,
and holds neither symbols nor blanks. -/
def isName (text : String) : Bool :=
  !text.toList.isEmpty && !isNumeral text &&
    text.toList.all fun c => !isSymbolChar c && !isBlank c

/-- What a token is to the grammar. -/
inductive Kind
  | operator (op : Operator)
  | opening
  | closing
  | comma
  | numeral
  | name
  deriving DecidableEq, Repr

/-- The kind of a token that is one character long and a symbol. -/
def symbolKind? : Char → Option Kind
  | '(' => some .opening
  | ')' => some .closing
  | ',' => some .comma
  | c => (Operator.ofChar? c).map .operator

/-- The symbol that a token is, if it is one. -/
def symbol? (text : String) : Option Kind :=
  match text.toList with
  | [c] => symbolKind? c
  | _ => none

/-- Every text has a kind: symbols and numerals are told by their characters,
whatever remains is a name. -/
def kind (text : String) : Kind :=
  (symbol? text).getD (if isNumeral text then .numeral else .name)

/-- The operator that a token spells. -/
def operator? (text : String) : Option Operator :=
  match kind text with
  | .operator op => some op
  | _ => none

def isSymbol (text : String) : Bool := (symbol? text).isSome

/-- The value of a numeral, rounded to the nearest float. The digits on both
sides of the point are read as one number over a power of ten. -/
def numeralValue (text : String) : Float :=
  let digits := text.toList.filter Char.isDigit
  let significand := digits.foldl (fun n c => 10 * n + (c.toNat - '0'.toNat)) 0
  let places := (text.toList.dropWhile (· ≠ '.')).length - 1
  Float.ofScientific significand true places

theorem symbolKind?_isSome (c : Char) : (symbolKind? c).isSome = isSymbolChar c := by
  unfold symbolKind? Operator.ofChar? isSymbolChar
  repeat' split
  all_goals simp_all

end FormulaEngine.Token
