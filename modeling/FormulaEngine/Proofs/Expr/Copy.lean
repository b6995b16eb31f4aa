import FormulaEngine.Proofs.Expr.PostOrder

/-! Copies of trees. A copy is put together from the leaves up: every node is made anew from the
copies of its children, which are the last ones on the stack. An operation takes its operands
from the end, so the right one first. What comes out is the tree itself, with every number,
name, argument and position in its place, and no operation is ever short of an operand. -/

namespace FormulaEngine.Expr

variable {φ : Type}

/-- A node made anew, given the copies of its children. An operation without its operands
cannot be made. -/
def rebuild : Expr φ → List (Expr φ) → Except Fault (Expr φ)
  | number value p, _ => .ok (number value p)
  | var id p, _ => .ok (var id p)
  | binary op p _ _, copies =>
    match copies.getLast?, copies.dropLast.getLast? with
    | some right, some left => .ok (binary op p left right)
    | _, _ => .error .missingOperand
  | call f p _, copies => .ok (call f p copies)

/-- A node is made anew from its own children. -/
theorem rebuild_children (e : Expr φ) : rebuild e e.children = .ok e := by
  cases e <;> rfl

theorem fromBelow_rebuild (e : Expr φ) : fromBelow rebuild e = .ok e := by
  induction e using induction_children with
  | node e ih =>
    have hcopies : fromBelowAll rebuild e.children = .ok (e.children.map id) :=
      fromBelowAll_of_pure rebuild ih
    rw [List.map_id] at hcopies
    rw [fromBelow_eq, hcopies]
    exact rebuild_children e

/-- The copy of a tree is the tree, and making it never fails. -/
theorem foldStack_rebuild (e : Expr φ) :
    foldStack rebuild e = .ok e ∧ e.relocate id = e := by
  rw [foldStack_eq_fromBelow, fromBelow_rebuild]
  exact ⟨rfl, relocate_id e⟩

end FormulaEngine.Expr
