/-! Expression trees. The leaves are numbers and variables, the inner nodes are
binary operations and calls of functions of some type. Every node may carry the
index of the token it was read from, which serves to say where an error is and
nothing else. A tree built by hand need not be valid: its operators may be any
characters, its variables may be missing, and its calls may have the wrong
number of arguments. -/

namespace FormulaEngine

/-- A float as a tree holds it, by its 64 bits. A float in itself is a NaN or is
not; the bits of a tree tell one NaN from another. -/
@[ext]
structure Constant where
  bits : UInt64
  deriving DecidableEq, Repr

namespace Constant

def ofFloat (x : Float) : Constant := ⟨x.toBits⟩

/-- The float with these bits. -/
def toFloat (c : Constant) : Float := .ofBits c.bits

instance : Coe Float Constant := ⟨ofFloat⟩

instance {n : Nat} : OfNat Constant n := ⟨ofFloat (OfNat.ofNat n)⟩

end Constant

inductive Expr (φ : Type) where
  | number (value : Constant) (position : Option Nat)
  /-- A variable by its index in the table of bindings. -/
  | var (id : Nat) (position : Option Nat)
  | binary (op : Char) (position : Option Nat) (left right : Expr φ)
  | call (function : φ) (position : Option Nat) (args : List (Expr φ))

/-- What a node is, without its position and its children. A call remembers how
many arguments it has, so a label says how many children the node has. Numbers
are the same label if they have the same bits. -/
inductive Label (φ : Type) where
  | number (value : Constant)
  | var (id : Nat)
  | binary (op : Char)
  | call (function : φ) (argCount : Nat)
  deriving DecidableEq

namespace Expr

variable {φ : Type}

instance : Inhabited (Expr φ) := ⟨.number 0 none⟩

def label : Expr φ → Label φ
  | number value _ => .number value
  | var id _ => .var id
  | binary op _ _ _ => .binary op
  | call f _ args => .call f args.length

/-- The token the node was read from. -/
def position : Expr φ → Option Nat
  | number _ p | var _ p | binary _ p _ _ | call _ p _ => p

/-- The direct children in source order. -/
def children : Expr φ → List (Expr φ)
  | number _ _ | var _ _ => []
  | binary _ _ left right => [left, right]
  | call _ _ args => args

/-- The constant of a number node. -/
def constant? : Expr φ → Option Float
  | number value _ => some value.toFloat
  | _ => none

mutual

/-- The number of nodes of a tree. -/
def size : Expr φ → Nat
  | number _ _ | var _ _ => 1
  | binary _ _ left right => left.size + right.size + 1
  | call _ _ args => sizeOfAll args + 1

/-- The number of nodes of several trees. -/
def sizeOfAll : List (Expr φ) → Nat
  | [] => 0
  | e :: rest => e.size + sizeOfAll rest

end

theorem size_pos (e : Expr φ) : 0 < e.size := by
  cases e <;> simp [size]

@[simp] theorem sizeOfAll_append (as bs : List (Expr φ)) :
    sizeOfAll (as ++ bs) = sizeOfAll as + sizeOfAll bs := by
  induction as with
  | nil => simp [sizeOfAll]
  | cons e rest ih => simp [sizeOfAll, ih, Nat.add_assoc]

theorem sizeOfAll_children (e : Expr φ) : sizeOfAll e.children + 1 = e.size := by
  cases e <;> simp [children, size, sizeOfAll]

end Expr

end FormulaEngine
