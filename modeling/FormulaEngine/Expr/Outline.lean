import FormulaEngine.Expr

/-! The listing of a tree, parents before their children and children in source
order. Since every label says how many children its node has, the labels alone
determine the tree, so two trees are equal up to positions if their labels are
listed alike. Like all walks, this one keeps its work on a list. -/

namespace FormulaEngine

/-- A node in the listing. The root has depth zero. -/
structure Entry (φ : Type) where
  depth : Nat
  label : Label φ
  position : Option Nat
  deriving DecidableEq

namespace Expr

variable {φ : Type}

/-- Lists trees that stand at given depths, after the entries listed so far. -/
def listing (pending : List (Nat × Expr φ)) (entries : Array (Entry φ)) : Array (Entry φ) :=
  match pending with
  | [] => entries
  | (depth, e) :: rest =>
    listing (e.children.map (depth + 1, ·) ++ rest) (entries.push ⟨depth, e.label, e.position⟩)
termination_by sizeOfAll (pending.map (·.2))
decreasing_by
  have := sizeOfAll_children e
  simp only [List.map_append, List.map_map, Function.comp_def, List.map_id', List.map_cons,
    sizeOfAll, sizeOfAll_append]
  omega

/-- All nodes of a tree. -/
def outline (e : Expr φ) : List (Entry φ) := (listing [(0, e)] #[]).toList

/-- Trees are compared node by node, without their positions. -/
instance [DecidableEq φ] : BEq (Expr φ) where
  beq a b := a.outline.map (·.label) == b.outline.map (·.label)

end Expr

end FormulaEngine
