/-! The four arithmetic operators of a formula. Each is spelled by one character
and belongs to one of two tiers: products and quotients bind tighter than sums
and differences. Applying an operator is IEEE arithmetic, so a division by zero
gives an infinity or a NaN and never fails. -/

namespace FormulaEngine

/-- The result where no number makes sense. -/
def nan : Float := 0 / 0

/-- How tightly an operator binds. -/
inductive Tier
  /-- Sums and differences. -/
  | additive
  /-- Products and quotients. -/
  | multiplicative
  deriving DecidableEq, Repr

inductive Operator
  | add
  | sub
  | mul
  | div
  deriving DecidableEq, Repr

namespace Operator

/-- The character that spells the operator. -/
def symbol : Operator → Char
  | add => '+'
  | sub => '-'
  | mul => '*'
  | div => '/'

/-- The operator that a character spells. -/
def ofChar? : Char → Option Operator
  | '+' => some add
  | '-' => some sub
  | '*' => some mul
  | '/' => some div
  | _ => none

def tier : Operator → Tier
  | add | sub => .additive
  | mul | div => .multiplicative

/-- The value of the operator on two operands. -/
def apply : Operator → Float → Float → Float
  | add, a, b => a + b
  | sub, a, b => a - b
  | mul, a, b => a * b
  | div, a, b => a / b

@[simp] theorem ofChar?_symbol (op : Operator) : ofChar? op.symbol = some op := by
  cases op <;> rfl

theorem ofChar?_eq_some_iff {c : Char} {op : Operator} : ofChar? c = some op ↔ c = op.symbol := by
  constructor
  · intro h
    unfold ofChar? at h
    split at h <;> first | (cases h; rfl) | exact absurd h (by simp)
  · rintro rfl
    exact ofChar?_symbol op

end Operator

end FormulaEngine
