import FormulaEngine.Expr
import FormulaEngine.Grammar.Cursor
import FormulaEngine.Library

/-! Reading tokens as a tree, by recursive descent.

    expression  is  terms joined by `+` and `-`
    term        is  factors joined by `*` and `/`
    factor      is  a numeral, a group `( expression )`, a call, a variable,
                    or nothing before `+` or `-`, which stands for a zero
    call        is  a function name and `( expression , … )`, with any number
                    of arguments

Operators of one tier group to the left. Each rule leaves the cursor on the first
token that is not its own, and looks at no token beyond the one after it. Groups
and calls go one nesting level down; the recursion is on the levels that are left.
Inside one level the rules are loops over operands and arguments. Every operator
and every comma is a token, so the tokens that are left when a loop begins also
count its rounds. -/

namespace FormulaEngine

/-- A rule of the grammar as a function: the tree it reads and the cursor behind
it, or why it stopped. -/
abbrev Reading (φ : Type) := Cursor → Except Stop (Expr φ × Cursor)

/-- What the operators of a tier make of their operands. -/
def Tier.phrase : Tier → Phrase
  | .additive => .expression
  | .multiplicative => .term

/-- Whether a token of a kind may come after operands joined by a tier. -/
def Tier.mayPrecede : Tier → Token.Kind → Bool
  | _, .closing => true
  | _, .comma => true
  | .multiplicative, .operator op => op.tier = .additive
  | _, _ => false

namespace Reading

variable {φ : Type}

/-- Goes on with a series whose first operands have been read. There are no more
rounds than the list is long. -/
def seriesRest (tier : Tier) (operand : Reading φ) : List String → Expr φ → Reading φ
  | [], left, c => .ok (left, c)
  | _ :: rounds, left, c =>
    match c.operator? tier with
    | none => .ok (left, c)
    | some op =>
      match operand c.advance with
      | .ok (right, next) =>
        seriesRest tier operand rounds (.binary op.symbol (some c.index) left right) next
      | .error stop => .error stop

/-- Operands joined by the operators of a tier. What comes after them must be the
end of the tokens or a token that the tier may precede. -/
def series (tier : Tier) (room : Nat) (operand : Reading φ) : Reading φ := fun c => do
  let (first, next) ← operand c
  let (tree, last) ← seriesRest tier operand next.rest first next
  match last.rest with
  | [] => .ok (tree, last)
  | token :: _ =>
    if tier.mayPrecede (Token.kind token) then .ok (tree, last)
    else .error ⟨.unexpectedSymbol token tier.phrase, last, room⟩

/-- Goes on with an argument list, given the arguments read so far, last first.
There are no more rounds than the list is long: when it ends there is no token
left to begin an argument. -/
def argumentsRest (room : Nat) (argument : Reading φ) :
    List String → List (Expr φ) → Cursor → Except Stop (List (Expr φ) × Cursor)
  | [], _, c => .error ⟨.unexpectedEnd, c, room⟩
  | _ :: rounds, done, c =>
    match argument c with
    | .error stop => .error stop
    | .ok (tree, next) =>
      match next.kind? with
      | some .comma => argumentsRest room argument rounds (tree :: done) next.advance
      | some .closing => .ok ((tree :: done).reverse, next.advance)
      | _ => .error ⟨.expected ')', next, room⟩

/-- The arguments of a call, from behind the opening parenthesis to behind the
closing one. -/
def arguments (room : Nat) (argument : Reading φ) (c : Cursor) :
    Except Stop (List (Expr φ) × Cursor) :=
  if c.kind? = some .closing then .ok ([], c.advance)
  else argumentsRest room argument c.rest [] c

/-- A group. What is inside it is read by `inner`, unless no level is left. -/
def group (room : Nat) (inner? : Option (Reading φ)) : Reading φ := fun c =>
  match inner? with
  | none => .error ⟨.tooDeep nestingLimit, c, room⟩
  | some inner => do
    let (tree, next) ← inner c.advance
    let last ← next.pass ')' (room - 1)
    .ok (tree, last)

variable [Callable φ]

/-- A call of the function that the token at the cursor names. -/
def callWith (library : Library φ) (room : Nat) (inner? : Option (Reading φ)) :
    Reading φ := fun c =>
  match c.rest with
  | [] => .error ⟨.unexpectedEnd, c, room⟩
  | name :: _ =>
    match library.get? name with
    | none => .error ⟨.unsupportedFunction name, c, room⟩
    | some f =>
      match inner? with
      | none => .error ⟨.tooDeep nestingLimit, c, room⟩
      | some inner => do
        let opened ← c.advance.pass '(' (room - 1)
        let (args, last) ← arguments (room - 1) inner opened
        .ok (.call f (some c.index) args, last)

/-- An operand. A sign is not taken, it reads as a zero before it. -/
def factorWith (library : Library φ) (room : Nat) (inner? : Option (Reading φ)) :
    Reading φ := fun c =>
  match c.rest with
  | [] => .error ⟨.unexpectedEnd, c, room⟩
  | token :: rest =>
    match Token.kind token with
    | .operator op =>
      if op.tier = .additive then .ok (.number 0 none, c)
      else .error ⟨.unexpectedSymbol token .factor, c, room⟩
    | .closing | .comma => .error ⟨.unexpectedSymbol token .factor, c, room⟩
    | .opening => group room inner? c
    | .numeral => .ok (.number (Token.numeralValue token) (some c.index), c.advance)
    | .name =>
      if library.contains token then callWith library room inner? c
      else if rest.head?.map Token.kind = some .opening then
        .error ⟨.unsupportedFunction token, c, room⟩
      else
        let (id, bindings) := c.bindings.intern token
        .ok (.var id (some c.index), { c.advance with bindings })

/-- Sums and differences with `room` nesting levels left. -/
def expression (library : Library φ) : Nat → Reading φ
  | 0 => series .additive 0 (series .multiplicative 0 (factorWith library 0 none))
  | room + 1 =>
    series .additive (room + 1) (series .multiplicative (room + 1)
      (factorWith library (room + 1) (some (expression library room))))

/-- What is read inside a group or call, if a level is left for it. -/
def inside? (library : Library φ) : Nat → Option (Reading φ)
  | 0 => none
  | room + 1 => some (expression library room)

def factor (library : Library φ) (room : Nat) : Reading φ :=
  factorWith library room (inside? library room)

def call (library : Library φ) (room : Nat) : Reading φ :=
  callWith library room (inside? library room)

/-- Products and quotients with `room` nesting levels left. -/
def term (library : Library φ) (room : Nat) : Reading φ :=
  series .multiplicative room (factor library room)

theorem expression_eq (library : Library φ) (room : Nat) :
    expression library room = series .additive room (term library room) := by
  cases room <;> rfl

/-- The reading of each kind of phrase. -/
def ofPhrase (library : Library φ) (room : Nat) : Phrase → Reading φ
  | .expression => expression library room
  | .term => term library room
  | .factor => factor library room
  | .call => call library room

end Reading

end FormulaEngine
