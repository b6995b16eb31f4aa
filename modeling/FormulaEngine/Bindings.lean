/-! The variables of a formula, in the order in which the formula first uses
them, each with the value bound to it if there is one. A variable is known to
the tree by its index here, so a value bound once is seen at every use. -/

namespace FormulaEngine

structure Variable where
  name : String
  value : Option Float := none
  deriving Repr

namespace Variable

def hasValue (v : Variable) : Bool := v.value.isSome

/-- Variables are compared by name and by the values as numbers: a NaN differs
from itself and the two zeros are equal. -/
instance : BEq Variable := ⟨fun v w => v.name == w.name && v.value == w.value⟩

end Variable

structure Bindings where
  entries : List Variable := []
  deriving Repr

namespace Bindings

/-- The table without variables. -/
def empty : Bindings := {}

/-- Takes all variables out of a table. -/
def clear (table : Bindings) : Bindings := { table with entries := [] }

@[simp] theorem clear_eq_empty (table : Bindings) : table.clear = .empty := rfl

def size (table : Bindings) : Nat := table.entries.length

def isEmpty (table : Bindings) : Bool := table.entries.isEmpty

/-- The variable at an index. -/
def get? (table : Bindings) (id : Nat) : Option Variable := table.entries[id]?

theorem isNone_get?_iff {table : Bindings} {id : Nat} :
    (table.get? id).isNone = true ↔ table.size ≤ id := by
  rw [Option.isNone_iff_eq_none, get?, List.getElem?_eq_none_iff, size]

/-- The index of a name. -/
def idOf? (table : Bindings) (name : String) : Option Nat :=
  table.entries.findIdx? (·.name = name)

/-- The index of a name, which is added without a value if it is new. -/
def intern (table : Bindings) (name : String) : Nat × Bindings :=
  match table.idOf? name with
  | some id => (id, table)
  | none => (table.size, ⟨table.entries ++ [⟨name, none⟩]⟩)

/-- Binds a value to the variable at an index. -/
def bind (table : Bindings) (id : Nat) (value : Float) : Bindings :=
  ⟨table.entries.modify id fun v => { v with value := some value }⟩

/-- The first variable without a value. -/
def firstUnbound? (table : Bindings) : Option Variable := table.entries.find? (!·.hasValue)

/-- The value bound at an index. -/
def value? (table : Bindings) (id : Nat) : Option Float := (table.get? id).bind (·.value)

end Bindings

end FormulaEngine
