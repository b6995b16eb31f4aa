/-! What can go wrong with a formula, and how it is told. A cause that concerns
the text of a formula carries a location: the index of a token and a window of
the tokens around it. The other failures concern the names given to a formula,
or an engine that holds none. -/

namespace FormulaEngine

/-- Tokens shown on each side of the one an error is about. -/
def windowRadius : Nat := 10

/-- The tokens around an index, run together, with the one at the index between
`>>` and `<<`. Past the last token a mark for the end stands in its place. -/
def window (tokens : List String) (index : Nat) : String :=
  let before := (tokens.take index).drop (index - windowRadius)
  let after := (tokens.drop (index + 1)).take windowRadius
  let marked := match tokens[index]? with
    | some token => token
    | none => "<end>"
  String.join before ++ ">>" ++ marked ++ "<<" ++ String.join after

/-- Where an error was found. Nodes that stand for no token have no index. -/
structure Location where
  index : Option Nat
  context : String
  deriving DecidableEq, Repr

namespace Location

/-- The location of a token in its list. -/
def ofIndex (tokens : List String) (index : Option Nat) : Location :=
  ⟨index, index.elim "" (window tokens)⟩

def text (location : Location) : String :=
  match location.index with
  | some index => s!"token {index} in `" ++ location.context ++ "`"
  | none => "unknown position"

end Location

/-- The kinds of phrases that the grammar has. -/
inductive Phrase
  /-- Sums and differences of terms. -/
  | expression
  /-- Products and quotients of factors. -/
  | term
  /-- Numerals, variables, groups, calls and implicit zeros. -/
  | factor
  /-- A function applied to arguments. -/
  | call
  deriving DecidableEq, Repr

def Phrase.name : Phrase → String
  | expression => "expression"
  | term => "term"
  | factor => "factor"
  | call => "call"

/-- The stage at which a formula failed. -/
inductive Stage
  /-- The text could not be read as a tree. -/
  | lexical
  /-- The tree was read but is not valid. -/
  | structural
  /-- The values given do not fit the variables. -/
  | binding
  /-- There is no formula to work with. -/
  | state
  deriving DecidableEq, Repr

/-- What is wrong at some place of a formula. -/
inductive Cause
  /-- The tokens ended while something was still open. -/
  | unexpectedEnd
  /-- A token that no rule allows at this place. -/
  | unexpectedSymbol (symbol : String) (phrase : Phrase)
  /-- A particular symbol is missing. -/
  | expected (symbol : Char)
  /-- A call of a name that is not in the library. -/
  | unsupportedFunction (name : String)
  /-- More groups and calls inside each other than are allowed. -/
  | tooDeep (limit : Nat)
  /-- Tokens after a complete expression. -/
  | trailingSymbols
  /-- A binary operation with a character that is no operator. -/
  | unknownOperator (symbol : Char)
  /-- A call with more or fewer arguments than the function takes. -/
  | argumentCount (name : String) (arity found : Nat)
  /-- A number that is a NaN. -/
  | notANumber
  /-- A reference to a variable that is not in the table. -/
  | danglingVariable
  deriving DecidableEq, Repr

namespace Cause

def stage : Cause → Stage
  | unexpectedEnd | unexpectedSymbol .. | expected _ | unsupportedFunction _ | tooDeep _ => .lexical
  | trailingSymbols | unknownOperator _ | argumentCount .. | notANumber | danglingVariable =>
    .structural

/-- The wording of a cause, without the place. -/
def text : Cause → String
  | unexpectedEnd => "ParseError: unexpected end of input"
  | unexpectedSymbol symbol phrase =>
    "ParseError: unexpected symbol `" ++ symbol ++ "` in " ++ phrase.name
  | expected symbol => "ParseError: expected `" ++ symbol.toString ++ "`"
  | unsupportedFunction name => "ParseError: unsupported function `" ++ name ++ "`"
  | tooDeep limit => s!"ParseError: nesting deeper than {limit} levels"
  | trailingSymbols => "ParseError: unparsed trailing symbols"
  | unknownOperator symbol => "CheckError: unsupported operator `" ++ symbol.toString ++ "`"
  | argumentCount name arity found =>
    "CheckError: function `" ++ name ++ s!"` expects {arity} argument(s), found {found}"
  | notANumber => "CheckError: number literal is not a number"
  | danglingVariable => "CheckError: variable reference without binding"

end Cause

/-- Why an operation of the engine did not succeed. -/
inductive Failure
  /-- Something is wrong with the text or the tree of a formula. -/
  | located (cause : Cause) (location : Location)
  /-- A value was given for a name that the formula does not use. -/
  | unknownVariable (name : String)
  /-- Values were given and this variable still has none. -/
  | unassigned (name : String)
  /-- Evaluation was asked for and this variable has no value. -/
  | unset (name : String)
  /-- There is no formula. -/
  | notParsed
  deriving DecidableEq, Repr

namespace Failure

/-- A cause found at a token of a list. -/
def atToken (cause : Cause) (tokens : List String) (index : Option Nat) : Failure :=
  located cause (.ofIndex tokens index)

def location? : Failure → Option Location
  | located _ location => some location
  | _ => none

/-- The index of the token the failure is about, if there is one. -/
def position? (failure : Failure) : Option Nat := failure.location?.bind (·.index)

def stage : Failure → Stage
  | located cause _ => cause.stage
  | unknownVariable _ | unassigned _ | unset _ => .binding
  | notParsed => .state

def message : Failure → String
  | located cause location => cause.text ++ " at " ++ location.text
  | unknownVariable name => "NameError: unknown variable '" ++ name ++ "'"
  | unassigned name => "NameError: variable '" ++ name ++ "' not yet assigned"
  | unset name => "NameError: variable '" ++ name ++ "' not set"
  | notParsed => "StateError: no successfully parsed formula"

end Failure

end FormulaEngine
