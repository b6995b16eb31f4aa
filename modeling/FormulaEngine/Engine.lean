import FormulaEngine.Expr.Check
import FormulaEngine.Expr.Evaluate
import FormulaEngine.Expr.Listing
import FormulaEngine.Grammar.Reader
import FormulaEngine.Library.Standard
import FormulaEngine.Token.Scan

/-! The engine: a library of functions and the last formula that was parsed, with
its variables. A formula is parsed once and evaluated as often as wanted, with
values bound in between. Functions registered later are seen by the formulas
parsed after that and by no earlier one. -/

namespace FormulaEngine

structure Engine (φ : Type) where
  library : Library φ := {}
  /-- The tokens of the last text given to parse. -/
  tokens : List String := []
  bindings : Bindings := {}
  /-- The tree of the formula, if the last text parsed. -/
  root : Option (Expr φ) := none

namespace Engine

variable {φ : Type} [Callable φ]

/-- An engine that holds these functions and no formula. -/
def ofFunctions (functions : List φ) : Engine φ := { library := .ofList functions }

/-- The engine with a function added or replaced. -/
def register (engine : Engine φ) (f : φ) : Engine φ :=
  { engine with library := engine.library.register f }

/-- The engine without a formula and its variables. -/
def clear (engine : Engine φ) : Engine φ :=
  { engine with bindings := engine.bindings.clear, root := none }

/-- Reads tokens as one whole formula and puts its variables into a table, where
those that were read before a failure stay. A tree that is not valid is reported
before tokens that are left over. -/
def build (library : Library φ) (tokens : List String) (table : Bindings) :
    Except Failure (Expr φ) × Bindings :=
  let (result, reader) := (Reader.start library tokens table).read .expression
  let table := reader.cursor.bindings
  match result with
  | .error failure => (.error failure, table)
  | .ok root =>
    match root.check table tokens with
    | .error failure => (.error failure, table)
    | .ok () =>
      if reader.atEnd then (.ok root, table)
      else (.error (.atToken .trailingSymbols tokens (some reader.cursor.index)), table)

/-- Takes a text as the formula, in place of the one before. On failure the
engine holds no formula, but keeps the tokens of the text. -/
def parse (engine : Engine φ) (text : String) : Except Failure Unit × Engine φ :=
  let cleared := { engine.clear with tokens := tokenize text }
  match build cleared.library cleared.tokens cleared.bindings with
  | (.ok root, bindings) => (.ok (), { cleared with bindings, root := some root })
  | (.error failure, bindings) => (.error failure, { cleared with bindings := bindings.clear })

/-- The indices of the names that values are given for, or the first name that
is no variable of the table. -/
def resolve (table : Bindings) (values : List (String × Float)) :
    Except Failure (List (Nat × Float)) :=
  values.mapM fun (name, value) =>
    match table.idOf? name with
    | some id => .ok (id, value)
    | none => .error (.unknownVariable name)

/-- Binds values to variables. If some name is no variable, nothing is bound. -/
def bind (engine : Engine φ) (values : List (String × Float)) :
    Except Failure Unit × Engine φ :=
  match resolve engine.bindings values with
  | .error failure => (.error failure, engine)
  | .ok bound =>
    (.ok (), { engine with
      bindings := bound.foldl (fun table (id, value) => table.bind id value) engine.bindings })

/-- Binds values to variables and asks that afterwards every variable has one.
Values bound before are kept, and so are the new ones if some are missing. -/
def assign (engine : Engine φ) (values : List (String × Float)) :
    Except Failure Unit × Engine φ :=
  match engine.bind values with
  | (.error failure, same) => (.error failure, same)
  | (.ok (), bound) =>
    match bound.bindings.firstUnbound? with
    | some v => (.error (.unassigned v.name), bound)
    | none => (.ok (), bound)

/-- The value of the formula with the values bound to its variables. -/
def evaluate (engine : Engine φ) : Except Failure Float :=
  match engine.root with
  | none => .error .notParsed
  | some root =>
    match engine.bindings.firstUnbound? with
    | some v => .error (.unset v.name)
    | none => .ok (root.evaluate engine.bindings)

/-- A copy of the engine. Its tree is built anew, node by node. -/
def clone (engine : Engine φ) : Engine φ :=
  { engine with root := engine.root.map (·.relocate id) }

/-- The listing of the formula. -/
def listingText (engine : Engine φ) : Option String :=
  engine.root.map (·.listingText engine.bindings)

end Engine

/-- The value of a formula that uses the standard functions, with the values of a
context. Entries of the context that the formula does not use are ignored, and a
variable that the context lacks is reported as having no value. -/
def evaluate [PairFunctions] (text : String) (context : String → Option Float) :
    Except Failure Float :=
  let (parsed, engine) := (Engine.ofFunctions ElementaryFunction.all).parse text
  match parsed with
  | .error failure => .error failure
  | .ok () =>
    let values := engine.bindings.entries.filterMap fun v =>
      (context v.name).map (v.name, ·)
    match engine.bind values with
    | (.error failure, _) => .error failure
    | (.ok (), bound) => bound.evaluate

end FormulaEngine
