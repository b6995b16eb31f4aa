import FormulaEngine.Bindings
import FormulaEngine.Expr.Fold
import FormulaEngine.Library
import FormulaEngine.Operator

/-! The value of a tree. Evaluation never fails: on a tree that is not valid an
operator that is none gives a NaN, and a variable that has no value, or that is
not in the table, reads as zero. -/

namespace FormulaEngine

/-- The value of a character applied as an operator. -/
def applySymbol (symbol : Char) (a b : Float) : Float :=
  match Operator.ofChar? symbol with
  | some op => op.apply a b
  | none => nan

namespace Expr

variable {φ : Type} [Callable φ]

/-- How each kind of node is evaluated. -/
def valuation (table : Bindings) : Algebra φ Id Float where
  number value _ := value.toFloat
  var id _ := (table.value? id).getD 0
  binary op _ a b := applySymbol op a b
  call f _ args := Callable.call f args

def evaluate (table : Bindings) (e : Expr φ) : Float := (e.foldM (valuation table)).run

end Expr

end FormulaEngine
