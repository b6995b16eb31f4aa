import FormulaEngine.Grammar.Reading

/-! Reading one rule after the other from the same tokens. A reader goes on where
the last rule left off, whether it succeeded or not: what an error leaves open
stays open, so a failed rule may use up nesting levels. -/

namespace FormulaEngine

structure Reader (φ : Type) where
  tokens : List String
  library : Library φ
  cursor : Cursor
  /-- The nesting levels that are left. -/
  room : Nat := nestingLimit

namespace Reader

variable {φ : Type} [Callable φ]

/-- A reader at the first token, with the variables known beforehand. -/
def start (library : Library φ) (tokens : List String) (bindings : Bindings) : Reader φ where
  tokens
  library
  cursor := ⟨0, tokens, bindings⟩

def atEnd (reader : Reader φ) : Bool := reader.cursor.rest.isEmpty

/-- Reads one phrase of a kind. -/
def read (reader : Reader φ) (phrase : Phrase) :
    Except Failure (Expr φ) × Reader φ :=
  match Reading.ofPhrase reader.library reader.room phrase reader.cursor with
  | .ok (tree, cursor) => (.ok tree, { reader with cursor })
  | .error stop =>
    (.error (.atToken stop.cause reader.tokens (some stop.cursor.index)),
      { reader with cursor := stop.cursor, room := stop.room })

end Reader

end FormulaEngine
