import FormulaEngine.Bindings
import FormulaEngine.Expr.Outline
import FormulaEngine.Failure
import FormulaEngine.Library
import FormulaEngine.Operator

/-! Whether a tree is valid: no number is a NaN, every variable is in the table,
every operator is one, and every call has as many arguments as its function
takes. Of several offending nodes the first in the listing is reported, so a
node before its children and children from left to right. -/

namespace FormulaEngine

variable {φ : Type} [Callable φ]

/-- What is wrong with a node by itself. -/
def Label.fault? (table : Bindings) : Label φ → Option Cause
  | .number value => if value.toFloat.isNaN then some .notANumber else none
  | .var id => if (table.get? id).isNone then some .danglingVariable else none
  | .binary op => if (Operator.ofChar? op).isNone then some (.unknownOperator op) else none
  | .call f argCount =>
    if argCount = Callable.arity f then none
    else some (.argumentCount (Callable.name f) (Callable.arity f) argCount)

namespace Expr

/-- The first offending node of a tree, with what is wrong with it. -/
def firstFault? (table : Bindings) (e : Expr φ) : Option (Cause × Option Nat) :=
  e.outline.findSome? fun entry => (entry.label.fault? table).map (·, entry.position)

/-- Succeeds on valid trees. The tokens are the ones the tree was read from. -/
def check (table : Bindings) (tokens : List String) (e : Expr φ) : Except Failure Unit :=
  match e.firstFault? table with
  | none => .ok ()
  | some (cause, position) => .error (.atToken cause tokens position)

end Expr

end FormulaEngine
