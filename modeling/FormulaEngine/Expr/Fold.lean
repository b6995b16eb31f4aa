import FormulaEngine.Expr

/-! Combining a tree from the leaves up. Sums of many terms are trees as deep as
they are long, so the walk keeps what it still has to do on a list of frames and
not on the call stack. A frame is a node some of whose children are done: it
holds their results and the children still to come, so the walk never meets a
node without the results that it needs. -/

namespace FormulaEngine

/-- What to make of each kind of node, given the results of its children. The
steps may have effects. -/
structure Algebra (φ : Type) (m : Type → Type) (τ : Type) where
  number : Constant → Option Nat → m τ
  var : Nat → Option Nat → m τ
  binary : Char → Option Nat → τ → τ → m τ
  call : φ → Option Nat → List τ → m τ

namespace Expr

variable {φ τ : Type} {m : Type → Type}

/-- A node in progress. -/
inductive Frame (φ τ : Type) where
  /-- The left operand is being worked on, the right one is to come. -/
  | left (op : Char) (position : Option Nat) (right : Expr φ)
  /-- The right operand is being worked on. -/
  | right (op : Char) (position : Option Nat) (left : τ)
  /-- An argument is being worked on. The results of the ones before it are kept
  last first. -/
  | arg (function : φ) (position : Option Nat) (done : List τ) (rest : List (Expr φ))

/-- What the walk has in hand: a tree to enter, or the result of one. -/
inductive Focus (φ τ : Type) where
  | tree (e : Expr φ)
  | result (value : τ)

/-- A bound on the steps that the frames still cause. -/
def pendingSteps : List (Frame φ τ) → Nat
  | [] => 0
  | .left _ _ right :: frames => 2 * right.size + 1 + pendingSteps frames
  | .right _ _ _ :: frames => 1 + pendingSteps frames
  | .arg _ _ _ rest :: frames => 2 * sizeOfAll rest + 1 + pendingSteps frames

def Focus.steps : Focus φ τ → Nat
  | .tree e => 2 * e.size
  | .result _ => 1

/-- One walk over a tree with frames. -/
@[specialize]
def walk [Monad m] (alg : Algebra φ m τ) (focus : Focus φ τ) (frames : List (Frame φ τ)) : m τ :=
  match focus, frames with
  | .tree (.number value p), frames => do
    walk alg (.result (← alg.number value p)) frames
  | .tree (.var id p), frames => do
    walk alg (.result (← alg.var id p)) frames
  | .tree (.binary op p l r), frames => walk alg (.tree l) (.left op p r :: frames)
  | .tree (.call f p []), frames => do
    walk alg (.result (← alg.call f p [])) frames
  | .tree (.call f p (e :: rest)), frames => walk alg (.tree e) (.arg f p [] rest :: frames)
  | .result v, [] => pure v
  | .result v, .left op p r :: frames => walk alg (.tree r) (.right op p v :: frames)
  | .result v, .right op p l :: frames => do
    walk alg (.result (← alg.binary op p l v)) frames
  | .result v, .arg f p done [] :: frames => do
    walk alg (.result (← alg.call f p (v :: done).reverse)) frames
  | .result v, .arg f p done (e :: rest) :: frames =>
    walk alg (.tree e) (.arg f p (v :: done) rest :: frames)
termination_by focus.steps + pendingSteps frames
decreasing_by
  all_goals simp only [Focus.steps, pendingSteps, size, sizeOfAll]
  all_goals omega

/-- The result of combining a tree: every node once, after its children, which
are done from left to right. -/
@[inline] def foldM [Monad m] (alg : Algebra φ m τ) (e : Expr φ) : m τ := walk alg (.tree e) []

/-- The same tree with every position changed by a function. -/
def relocate (g : Option Nat → Option Nat) (e : Expr φ) : Expr φ :=
  Id.run <| e.foldM {
    number := fun value p => pure (.number value (g p))
    var := fun id p => pure (.var id (g p))
    binary := fun op p l r => pure (.binary op (g p) l r)
    call := fun f p args => pure (.call f (g p) args) }

end Expr

end FormulaEngine
