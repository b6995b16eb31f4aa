import FormulaEngine.Grammar.Reading
import FormulaEngine.Proofs.Token.Symbol

/-! The grammar by itself, apart from the way it is read.

    expression   is  term (('+' | '-') term)*
    term         is  factor (('*' | '/') factor)*
    factor       is  a numeral | '(' expression ')' | name '(' arguments ')'
                     | a variable | nothing, if '+' or '-' comes next
    arguments    is  nothing | expression (',' expression)*

A derivation is a tree of these rules. The operators of each tier are the ones written
here; that the reader goes by the same tiers is a lemma. Whether a sign comes next is an
index of a derivation, since one of the rules may be used nowhere else. Nothing is said
of the other tokens that come next, nor of nesting: how deep a derivation is can be
measured. What a derivation means is told by an interpretation of numerals, variables,
operations and calls; the operators of one series are applied from the left. -/

namespace FormulaEngine

/-- The levels of an expression: sums, products, and the factors in them. -/
inductive Level
  | series (tier : Tier)
  | factor
  deriving DecidableEq

/-- What the operators of a tier join. -/
def Tier.operand : Tier → Level
  | .additive => .series .multiplicative
  | .multiplicative => .factor

/-- The operators between the operands of a tier. -/
def Tier.operators : Tier → List Operator
  | .additive => [.add, .sub]
  | .multiplicative => [.mul, .div]

/-- Each operator stands in the tier that the reader takes it for. -/
theorem Tier.mem_operators_iff {tier : Tier} {op : Operator} :
    op ∈ tier.operators ↔ op.tier = tier := by
  cases tier <;> cases op <;> decide

/-- What holds inside a group or call for factors, and of operands for series, holds at all
levels, whatever room is left. -/
theorem Level.induction {P : Nat → Level → Prop}
    (factor : ∀ room, (∀ inner, inner + 1 = room → P inner (.series .additive)) → P room .factor)
    (series : ∀ room (tier : Tier), P room tier.operand → P room (.series tier))
    (room : Nat) (level : Level) : P room level := by
  induction room generalizing level with
  | zero =>
    have hfactor : P 0 .factor := factor 0 nofun
    have hterm : P 0 (.series .multiplicative) := series 0 .multiplicative hfactor
    match level with
    | .factor => exact hfactor
    | .series .multiplicative => exact hterm
    | .series .additive => exact series 0 .additive hterm
  | succ room ih =>
    have hfactor : P (room + 1) .factor := by
      refine factor (room + 1) ?_
      rintro _ ⟨⟩
      exact ih (.series .additive)
    have hterm : P (room + 1) (.series .multiplicative) := series _ .multiplicative hfactor
    match level with
    | .factor => exact hfactor
    | .series .multiplicative => exact hterm
    | .series .additive => exact series _ .additive hterm

/-- What can be derived. -/
inductive Part
  | level (level : Level)
  /-- What stands between the parentheses of a call. -/
  | arguments
  /-- At least one argument. -/
  | argumentList

/-- The derivations of a part. The index tells whether a sign comes next. -/
inductive Derivation {φ : Type} [Callable φ] (library : Library φ) : Part → Bool → Type where
  /-- The last operand of a series. -/
  | last {tier : Tier} {sign : Bool} (operand : Derivation library (.level tier.operand) sign) :
      Derivation library (.level (.series tier)) sign
  /-- An operand of a series before an operator and the rest of the series. -/
  | join {tier : Tier} {sign : Bool}
      (operand : Derivation library (.level tier.operand) tier.isSign)
      (op : Operator) (isOfTier : op ∈ tier.operators)
      (rest : Derivation library (.level (.series tier)) sign) :
      Derivation library (.level (.series tier)) sign
  | numeral {sign : Bool} (text : String) (isNumeral : Token.kind text = .numeral) :
      Derivation library (.level .factor) sign
  | var {sign : Bool} (text : String) (isName : Token.kind text = .name)
      (isFree : library.get? text = none) : Derivation library (.level .factor) sign
  /-- The zero that is not written before a sign. -/
  | zero : Derivation library (.level .factor) true
  | group {sign : Bool} (inner : Derivation library (.level (.series .additive)) false) :
      Derivation library (.level .factor) sign
  | call {sign : Bool} (text : String) (function : φ) (isName : Token.kind text = .name)
      (isRegistered : library.get? text = some function)
      (args : Derivation library .arguments false) : Derivation library (.level .factor) sign
  | noArguments : Derivation library .arguments false
  | someArguments (list : Derivation library .argumentList false) :
      Derivation library .arguments false
  | one (argument : Derivation library (.level (.series .additive)) false) :
      Derivation library .argumentList false
  | more (argument : Derivation library (.level (.series .additive)) false)
      (rest : Derivation library .argumentList false) : Derivation library .argumentList false

/-- The derivations of a whole formula. -/
abbrev Sentence {φ : Type} [Callable φ] (library : Library φ) :=
  Derivation library (.level (.series .additive)) false

/-- The first operand of a series, and the operators and operands after it. Each
operator comes with the index of its token. -/
structure Chain (τ : Type) where
  first : τ
  rest : List (Operator × Nat × τ) := []

/-- The operators of a chain applied from the left. -/
def Chain.fold {τ : Type} (binary : Operator → Nat → τ → τ → τ) (chain : Chain τ) : τ :=
  chain.rest.foldl (fun left (op, index, right) => binary op index left right) chain.first

/-- What to make of the nodes of a tree. Each is told the index of its token; the
unwritten zero has none. -/
structure Meaning (φ τ : Type) where
  number : Constant → Option Nat → τ
  var : String → Nat → τ
  binary : Operator → Nat → τ → τ → τ
  call : φ → Nat → List τ → τ

/-- What a part means: a level means a chain, arguments mean a list. -/
abbrev Part.Value (τ : Type) : Part → Type
  | .level _ => Chain τ
  | .arguments | .argumentList => List τ

/-- The tree that is read, given the indices of the variables. -/
def Meaning.tree {φ : Type} (ids : String → Nat) : Meaning φ (Expr φ) where
  number := .number
  var name index := .var (ids name) (some index)
  binary op index left right := .binary op.symbol (some index) left right
  call function index args := .call function (some index) args

namespace Derivation

variable {φ : Type} [Callable φ] {library : Library φ} {part : Part} {sign : Bool}

/-- The tokens that are derived. -/
def tokens {part : Part} {sign : Bool} : Derivation library part sign → List String
  | last operand => operand.tokens
  | join operand op _ rest => operand.tokens ++ op.token :: rest.tokens
  | numeral text _ => [text]
  | var text _ _ => [text]
  | zero => []
  | group inner => "(" :: (inner.tokens ++ [")"])
  | call text _ _ _ args => text :: "(" :: (args.tokens ++ [")"])
  | noArguments => []
  | someArguments list => list.tokens
  | one argument => argument.tokens
  | more argument rest => argument.tokens ++ "," :: rest.tokens

/-- How many groups and calls are inside each other at most. -/
def depth {part : Part} {sign : Bool} : Derivation library part sign → Nat
  | last operand => operand.depth
  | join operand _ _ rest => max operand.depth rest.depth
  | numeral _ _ | var _ _ _ | zero | noArguments => 0
  | group inner => inner.depth + 1
  | call _ _ _ _ args => args.depth + 1
  | someArguments list => list.depth
  | one argument => argument.depth
  | more argument rest => max argument.depth rest.depth

/-- The variables in the order of their uses. -/
def uses {part : Part} {sign : Bool} : Derivation library part sign → List String
  | last operand => operand.uses
  | join operand _ _ rest => operand.uses ++ rest.uses
  | var text _ _ => [text]
  | numeral _ _ | zero | noArguments => []
  | group inner => inner.uses
  | call _ _ _ _ args => args.uses
  | someArguments list => list.uses
  | one argument => argument.uses
  | more argument rest => argument.uses ++ rest.uses

/-- What a derivation means if its first token has this index. -/
def interpret {τ : Type} (m : Meaning φ τ) {part : Part} {sign : Bool} :
    Derivation library part sign → Nat → part.Value τ
  | last operand, i => ⟨(operand.interpret m i).fold m.binary, []⟩
  | join operand op _ rest, i =>
    let j := i + operand.tokens.length
    let chain := rest.interpret m (j + 1)
    ⟨(operand.interpret m i).fold m.binary, (op, j, chain.first) :: chain.rest⟩
  | numeral text _, i => ⟨m.number (Token.numeralValue text) (some i), []⟩
  | var text _ _, i => ⟨m.var text i, []⟩
  | zero, _ => ⟨m.number 0 none, []⟩
  | group inner, i => ⟨(inner.interpret m (i + 1)).fold m.binary, []⟩
  | call _ function _ _ args, i => ⟨m.call function i (args.interpret m (i + 2)), []⟩
  | noArguments, _ => []
  | someArguments list, i => list.interpret m i
  | one argument, i => [(argument.interpret m i).fold m.binary]
  | more argument rest, i =>
    (argument.interpret m i).fold m.binary ::
      rest.interpret m (i + argument.tokens.length + 1)

/-- What the derivation of a level means as a whole. -/
def meaning {τ : Type} (m : Meaning φ τ) {level : Level}
    (d : Derivation library (.level level) sign) (i : Nat) : τ :=
  Chain.fold m.binary (d.interpret m i)

/-- The tree of a derivation whose first token has this index. -/
def tree (ids : String → Nat) {level : Level} (d : Derivation library (.level level) sign)
    (i : Nat) : Expr φ :=
  d.meaning (.tree ids) i

end Derivation

end FormulaEngine
