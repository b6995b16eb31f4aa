import FormulaEngine.Bindings
import FormulaEngine.Failure
import FormulaEngine.Token

/-! Where reading stands in a list of tokens. Reading never looks back, so a
cursor holds only the tokens that are left, next to the index of the first of
them and the variables met so far. What stops a reading is told by the cursor it
stopped at and the nesting levels that were left there. -/

namespace FormulaEngine

/-- Groups and calls may be inside each other up to this many levels. -/
def nestingLimit : Nat := 256

structure Cursor where
  /-- How many tokens lie before the cursor. -/
  index : Nat
  /-- The tokens that are left. -/
  rest : List String
  /-- The variables met so far. -/
  bindings : Bindings
  deriving Repr

namespace Cursor

/-- The kind of the token at the cursor, if any is left. -/
def kind? (c : Cursor) : Option Token.Kind := c.rest.head?.map Token.kind

/-- The cursor after one token. -/
def advance (c : Cursor) : Cursor := { c with index := c.index + 1, rest := c.rest.tail }

/-- The operator of a tier at the cursor, if there is one. -/
def operator? (c : Cursor) (tier : Tier) : Option Operator :=
  match c.kind? with
  | some (.operator op) => if op.tier = tier then some op else none
  | _ => none

end Cursor

/-- Why a reading stopped, where, and with how many nesting levels left. The
token at the cursor is the one the cause is about. -/
structure Stop where
  cause : Cause
  cursor : Cursor
  room : Nat
  deriving Repr

/-- Moves past a symbol that has to be there. -/
def Cursor.pass (c : Cursor) (symbol : Char) (room : Nat) : Except Stop Cursor :=
  if c.kind? = Token.symbolKind? symbol then .ok c.advance
  else .error ⟨.expected symbol, c, room⟩

end FormulaEngine
