import FormulaEngine.Decimal.Layout
import FormulaEngine.Expr
import FormulaEngine.Library
import FormulaEngine.Text.Quoted

/-! A tree as one line of text that shows everything in it: the kind of each node
with its data and its position, and its children in parentheses. The walk keeps
a list of the pieces still to be written, which are trees and the text between
them. -/

namespace FormulaEngine.Expr

variable {φ : Type}

inductive Piece (φ : Type) where
  | text (s : String)
  | tree (e : Expr φ)

/-- What a piece costs. Of the three steps that pay for a node, one is left over
for the text before it. -/
def Piece.cost : Piece φ → Nat
  | text _ => 1
  | tree e => 3 * e.size - 1

def costOfAll : List (Piece φ) → Nat
  | [] => 0
  | piece :: rest => piece.cost + costOfAll rest

@[simp] theorem costOfAll_append (as bs : List (Piece φ)) :
    costOfAll (as ++ bs) = costOfAll as + costOfAll bs := by
  induction as with
  | nil => simp [costOfAll]
  | cons p rest ih => simp [costOfAll, ih, Nat.add_assoc]

def positionText : Option Nat → String
  | none => "None"
  | some n => s!"Some({n})"

/-- Trees with a comma between each two. -/
def separated (args : List (Expr φ)) : List (Piece φ) :=
  (args.map Piece.tree).intersperse (.text ", ")

theorem costOfAll_separated_le (args : List (Expr φ)) :
    costOfAll (separated args) ≤ 3 * sizeOfAll args := by
  induction args with
  | nil => simp [separated, costOfAll]
  | cons e rest ih =>
    have := e.size_pos
    cases rest <;>
      simp_all only [separated, List.map_cons, List.map_nil, List.intersperse_singleton,
        List.intersperse_cons_cons, costOfAll, Piece.cost, sizeOfAll] <;>
      omega

variable [Callable φ]

/-- The text that a node begins with, and the pieces that follow it. -/
def opening : Expr φ → String × List (Piece φ)
  | number value p =>
    ("Number(" ++ Layout.marked.text value.toFloat ++ ", " ++ positionText p ++ ")", [])
  | var id p => (s!"Variable(#{id}, " ++ positionText p ++ ")", [])
  | binary op p left right =>
    ("BinaryOp(" ++ Text.quoted op ++ ", " ++ positionText p ++ ", ",
      [.tree left, .text ", ", .tree right, .text ")"])
  | call f p args =>
    ("Call(" ++ Callable.name f ++ ", " ++ positionText p ++ ", [", separated args ++ [.text "])"])

theorem costOfAll_opening_lt (e : Expr φ) : costOfAll e.opening.2 < (Piece.tree e).cost := by
  cases e with
  | number | var => simp [opening, costOfAll, Piece.cost, size]
  | binary op p left right =>
    have := left.size_pos
    have := right.size_pos
    simp only [opening, costOfAll, Piece.cost, size]
    omega
  | call f p args =>
    have := costOfAll_separated_le args
    simp only [opening, costOfAll, costOfAll_append, Piece.cost, size]
    omega

/-- Writes pieces after the text written so far. -/
def write (pieces : List (Piece φ)) (written : String) : String :=
  match pieces with
  | [] => written
  | .text s :: rest => write rest (written ++ s)
  | .tree e :: rest => write (e.opening.2 ++ rest) (written ++ e.opening.1)
termination_by costOfAll pieces
decreasing_by
  · simp [costOfAll, Piece.cost]
  · have := costOfAll_opening_lt e
    simp only [costOfAll, costOfAll_append]
    omega

/-- The description of a tree. -/
def description (e : Expr φ) : String := write [.tree e] ""

end FormulaEngine.Expr
