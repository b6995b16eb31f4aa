import FormulaEngine.Grammar.Reader
import FormulaEngine.Proofs.Grammar.Derivation

/-! Reading with one state that is changed step by step. It has the index of the next token,
the variables met so far and a count of the levels that are open. Opening a level counts up,
closing it counts down, and an error leaves everything as it stands. The rules are those of
`Reading`, which has no such state. Every error tells the place in the rules that raised it, so
that the errors of two places can be told apart where their causes cannot. -/

namespace FormulaEngine

/-- The places in the rules where an error is raised. -/
inductive Site
  /-- Where a factor begins. -/
  | operand
  /-- Where a call begins. -/
  | callee
  /-- Where a level is opened for a group or a call. -/
  | level
  /-- Behind the name of a function. -/
  | opening
  /-- Behind the expression in a group. -/
  | group
  /-- Behind an argument. -/
  | argument
  /-- Behind the operands that a tier joins. -/
  | series (tier : Tier)
  deriving DecidableEq, Repr

/-- How a descent ends without a tree. -/
inductive Fault
  | failed (site : Site) (failure : Failure)
  /-- A level was closed and none was open. -/
  | underflow
  /-- A loop or the recursion went on for longer than was allowed for. -/
  | unfinished
  deriving DecidableEq, Repr

/-- The state of a descent. -/
structure Descent.State where
  /-- The index of the next token. -/
  index : Nat := 0
  bindings : Bindings
  /-- How many levels are open. -/
  depth : Nat := 0
  /-- How many levels were open at most. -/
  peak : Nat := 0
  deriving Repr

/-- A computation that changes the state and may fail. The state at a failure is kept. -/
abbrev Descent := EStateM Fault Descent.State

namespace Descent

namespace State

/-- The cursor of a state in the tokens. -/
def cursor (tokens : List String) (s : State) : Cursor :=
  ⟨s.index, tokens.drop s.index, s.bindings⟩

/-- The levels that are left. -/
def room (s : State) : Nat := nestingLimit - s.depth

/-- The state behind one token. -/
def advanced (s : State) : State := { s with index := s.index + 1 }

/-- The state inside one more level. -/
def entered (s : State) : State :=
  { s with depth := s.depth + 1, peak := max s.peak (s.depth + 1) }

theorem cursor_advanced {tokens : List String} {s : State} :
    s.advanced.cursor tokens = (s.cursor tokens).advance := by
  simp [cursor, advanced, Cursor.advance]

theorem length_rest_lt (tokens : List String) (s : State) :
    (s.cursor tokens).rest.length < tokens.length + 1 := by
  rw [cursor, List.length_drop]
  omega

end State

section Steps

variable (tokens : List String)

def here : Descent Cursor := return (← get).cursor tokens

def advance : Descent Unit := modify State.advanced

/-- Fails with a cause at the next token. -/
def failAt {α : Type} (site : Site) (cause : Cause) : Descent α := do
  throw (.failed site (.atToken cause tokens (some (← get).index)))

/-- Opens a level. -/
def enter : Descent Unit := do
  if nestingLimit ≤ (← get).depth then failAt tokens .level (.tooDeep nestingLimit)
  else modify State.entered

/-- Closes a level. -/
def leave : Descent Unit := do
  match (← get).depth with
  | 0 => throw .underflow
  | depth + 1 => modify fun s => { s with depth }

/-- Moves past a symbol that has to be there. -/
def expect (symbol : Char) (site : Site) : Descent Unit := do
  if (← here tokens).kind? = Token.symbolKind? symbol then advance
  else failAt tokens site (.expected symbol)

/-- The index of a name among the variables. -/
def intern (name : String) : Descent Nat := do
  let (id, bindings) := (← get).bindings.intern name
  modify fun s => { s with bindings }
  return id

end Steps

section Equations

variable {tokens : List String} {s : State} {α β : Type}

theorem bind_of_ok {run : Descent α} {goOn : α → Descent β} {a : α} {after : State}
    (h : run s = .ok a after) : (run >>= goOn) s = goOn a after := by
  simp only [bind, EStateM.bind, h]

theorem bind_of_error {run : Descent α} {goOn : α → Descent β} {fault : Fault} {after : State}
    (h : run s = .error fault after) : (run >>= goOn) s = .error fault after := by
  simp only [bind, EStateM.bind, h]

theorem here_bind (goOn : Cursor → Descent α) :
    (here tokens >>= goOn) s = goOn (s.cursor tokens) s := rfl

theorem failAt_eq (site : Site) (cause : Cause) :
    failAt (α := α) tokens site cause s =
      .error (.failed site (.atToken cause tokens (some s.index))) s := rfl

theorem advance_eq : advance s = .ok () s.advanced := rfl

theorem enter_of_lt (h : s.depth < nestingLimit) : enter tokens s = .ok () s.entered := by
  change (if nestingLimit ≤ s.depth then _ else _ : Descent Unit) s = _
  rw [if_neg (Nat.not_le.mpr h)]
  rfl

theorem enter_of_le (h : nestingLimit ≤ s.depth) :
    enter tokens s = failAt tokens .level (.tooDeep nestingLimit) s := by
  change (if nestingLimit ≤ s.depth then _ else _ : Descent Unit) s = _
  rw [if_pos h]

theorem leave_eq {depth : Nat} (h : s.depth = depth + 1) : leave s = .ok () { s with depth } := by
  change (match s.depth with
    | 0 => throw .underflow
    | depth + 1 => modify fun s => { s with depth } : Descent Unit) s = _
  rw [h]
  rfl

theorem expect_of_eq {symbol : Char} {site : Site}
    (h : (s.cursor tokens).kind? = Token.symbolKind? symbol) :
    expect tokens symbol site s = .ok () s.advanced := by
  change (if (s.cursor tokens).kind? = Token.symbolKind? symbol then _ else _ : Descent Unit) s = _
  rw [if_pos h]
  rfl

theorem expect_of_ne {symbol : Char} {site : Site}
    (h : (s.cursor tokens).kind? ≠ Token.symbolKind? symbol) :
    expect tokens symbol site s = failAt tokens site (.expected symbol) s := by
  change (if (s.cursor tokens).kind? = Token.symbolKind? symbol then _ else _ : Descent Unit) s = _
  rw [if_neg h]

end Equations

section Rules

variable {φ : Type} (tokens : List String)

/-- Goes on with a series whose first operands have been read, for some rounds at most. -/
def seriesRest (tier : Tier) (operand : Descent (Expr φ)) : Nat → Expr φ → Descent (Expr φ)
  | 0, _ => throw .unfinished
  | rounds + 1, left => do
    let c ← here tokens
    match c.operator? tier with
    | none => return left
    | some op =>
      advance
      let right ← operand
      seriesRest tier operand rounds (.binary op.symbol (some c.index) left right)

/-- What a series asks of the token behind it. -/
def ended (tier : Tier) (tree : Expr φ) : Descent (Expr φ) := do
  match (← here tokens).rest with
  | [] => return tree
  | token :: _ =>
    if tier.mayPrecede (Token.kind token) then return tree
    else failAt tokens (.series tier) (.unexpectedSymbol token tier.phrase)

/-- Operands joined by the operators of a tier. Each operator is a token, which bounds the
rounds. -/
def series (tier : Tier) (operand : Descent (Expr φ)) : Descent (Expr φ) := do
  let first ← operand
  let tree ← seriesRest tokens tier operand (tokens.length + 1) first
  ended tokens tier tree

/-- Goes on with an argument list, given the arguments read so far, last first. -/
def argumentsRest (argument : Descent (Expr φ)) :
    Nat → List (Expr φ) → Descent (List (Expr φ))
  | 0, _ => throw .unfinished
  | rounds + 1, done => do
    let tree ← argument
    match (← here tokens).kind? with
    | some .comma =>
      advance
      argumentsRest argument rounds (tree :: done)
    | some .closing =>
      advance
      return (tree :: done).reverse
    | _ => failAt tokens .argument (.expected ')')

/-- The arguments of a call. Each comma is a token, which bounds the rounds. -/
def arguments (argument : Descent (Expr φ)) : Descent (List (Expr φ)) := do
  if (← here tokens).kind? = some .closing then
    advance
    return []
  else argumentsRest tokens argument (tokens.length + 1) []

def group (inner : Descent (Expr φ)) : Descent (Expr φ) := do
  enter tokens
  advance
  let tree ← inner
  expect tokens ')' .group
  leave
  return tree

variable [Callable φ] (library : Library φ)

def call (inner : Descent (Expr φ)) : Descent (Expr φ) := do
  let c ← here tokens
  match c.rest with
  | [] => failAt tokens .callee .unexpectedEnd
  | name :: _ =>
    match library.get? name with
    | none => failAt tokens .callee (.unsupportedFunction name)
    | some f =>
      enter tokens
      advance
      expect tokens '(' .opening
      let args ← arguments tokens inner
      leave
      return .call f (some c.index) args

def factor (inner : Descent (Expr φ)) : Descent (Expr φ) := do
  let c ← here tokens
  match c.rest with
  | [] => failAt tokens .operand .unexpectedEnd
  | token :: rest =>
    match Token.kind token with
    | .operator op =>
      if op.tier = .additive then return .number 0 none
      else failAt tokens .operand (.unexpectedSymbol token .factor)
    | .closing | .comma => failAt tokens .operand (.unexpectedSymbol token .factor)
    | .opening => group tokens inner
    | .numeral =>
      advance
      return .number (Token.numeralValue token) (some c.index)
    | .name =>
      if library.contains token then call tokens library inner
      else if rest.head?.map Token.kind = some .opening then
        failAt tokens .operand (.unsupportedFunction token)
      else
        advance
        let id ← intern token
        return .var id (some c.index)

/-- The descent of each level, given that through an expression inside a group or call. -/
def ofLevel (inner : Descent (Expr φ)) : Level → Descent (Expr φ)
  | .factor => factor tokens library inner
  | .series .multiplicative => series tokens .multiplicative (factor tokens library inner)
  | .series .additive =>
    series tokens .additive (series tokens .multiplicative (factor tokens library inner))

theorem ofLevel_series (inner : Descent (Expr φ)) (tier : Tier) :
    ofLevel tokens library inner (.series tier) =
      series tokens tier (ofLevel tokens library inner tier.operand) := by
  cases tier <;> rfl

/-- Sums and differences. The recursion is cut off at some number of levels. -/
def expression : Nat → Descent (Expr φ)
  | 0 => throw .unfinished
  | levels + 1 => ofLevel tokens library (expression levels) (.series .additive)

/-- The descent of each kind of phrase. There are never more levels than the limit. -/
def ofPhrase (phrase : Phrase) : Descent (Expr φ) :=
  let inner := expression tokens library nestingLimit
  match phrase with
  | .expression => ofLevel tokens library inner (.series .additive)
  | .term => ofLevel tokens library inner (.series .multiplicative)
  | .factor => ofLevel tokens library inner .factor
  | .call => call tokens library inner

end Rules

end Descent

end FormulaEngine
