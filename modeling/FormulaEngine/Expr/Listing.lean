import FormulaEngine.Bindings
import FormulaEngine.Decimal.Layout
import FormulaEngine.Expr.Outline
import FormulaEngine.Library

/-! The listing of a tree as text for a reader: a line for each node, indented by
two spaces for each level. -/

namespace FormulaEngine

variable {φ : Type} [Callable φ]

/-- What a line of the listing says of a node. -/
def Label.title (table : Bindings) : Label φ → String
  | .number value => "Number " ++ Layout.plain.text value.toFloat
  | .var id =>
    match table.get? id with
    | some ⟨name, some value⟩ => "Variable " ++ name ++ " = " ++ Layout.plain.text value
    | some ⟨name, none⟩ => "Variable " ++ name ++ " (unset)"
    | none => s!"Variable #{id} (dangling)"
  | .binary op => "BinaryOp " ++ op.toString
  | .call f _ => "Call " ++ Callable.name f ++ s!"/{Callable.arity f}"

def Entry.line (table : Bindings) (entry : Entry φ) : String :=
  "".pushn ' ' (2 * entry.depth) ++ entry.label.title table

/-- The lines of a tree, without a line break at the end. -/
def Expr.listingText (table : Bindings) (e : Expr φ) : String :=
  "\n".intercalate (e.outline.map (·.line table))

end FormulaEngine
