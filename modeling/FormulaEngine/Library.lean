/-! Functions that formulas can call. The host supplies a type of functions: what
the engine has to know of one is its name, how many arguments it takes, and its
value on arguments. Two entries of that type that are equal are the same
function, so a host that tells two functions of the same name and behaviour apart
puts what tells them apart into its type. A library holds at most one function
of each name, in the order of the names. -/

namespace FormulaEngine

/-- What the engine has to know of a function. -/
class Callable (φ : Type) where
  name : φ → String
  arity : φ → Nat
  /-- The number of arguments is not checked. -/
  call : φ → List Float → Float

/-- Functions of two hosts side by side. -/
instance {α β : Type} [Callable α] [Callable β] : Callable (α ⊕ β) where
  name := Sum.elim Callable.name Callable.name
  arity := Sum.elim Callable.arity Callable.arity
  call := Sum.elim Callable.call Callable.call

structure Library (φ : Type) where
  functions : List φ := []
  deriving Repr

namespace Library

variable {φ : Type} [Callable φ]

/-- Adds a function to a list ordered by names, in place of the one that has its
name. -/
def insert (f : φ) : List φ → List φ
  | [] => [f]
  | g :: rest =>
    if Callable.name f < Callable.name g then f :: g :: rest
    else if Callable.name f = Callable.name g then f :: rest
    else g :: insert f rest

/-- The library with a function added or replaced. Trees read before keep the
function they were read with. -/
def register (library : Library φ) (f : φ) : Library φ := ⟨insert f library.functions⟩

/-- The library of a list of functions, later ones replacing earlier ones. -/
def ofList (fs : List φ) : Library φ := fs.foldl register {}

/-- The function of exactly this name. -/
def get? (library : Library φ) (name : String) : Option φ :=
  library.functions.find? (Callable.name · = name)

def contains (library : Library φ) (name : String) : Bool := (library.get? name).isSome

/-- The names, in increasing order. -/
def names (library : Library φ) : List String := library.functions.map Callable.name

def size (library : Library φ) : Nat := library.functions.length

def isEmpty (library : Library φ) : Bool := library.functions.isEmpty

end Library

end FormulaEngine
