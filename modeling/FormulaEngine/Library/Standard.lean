import FormulaEngine.Library
import FormulaEngine.Library.Elementary

/-! The standard functions. Each takes one or two arguments; called with fewer it
gives a NaN, and further arguments are ignored. The functions of two numbers come
from a numeric library, and nothing is assumed of what they compute; the ones at the
end are those that formulas are run with. -/

namespace FormulaEngine

/-- The functions of two numbers that a numeric library supplies. -/
class PairFunctions where
  atan2 : Float → Float → Float
  hypot : Float → Float → Float
  fmod : Float → Float → Float
  min : Float → Float → Float
  max : Float → Float → Float

inductive ElementaryFunction
  | sqrt | cbrt | sin | cos | tan | asin | acos | atan
  | sinh | cosh | tanh | asinh | acosh | atanh
  | floor | ceil | round | abs | exp | ln | log2 | log10
  | atan2 | hypot | fmod | min | max
  deriving DecidableEq, Repr

namespace ElementaryFunction

/-- What computes a function. -/
inductive Rule
  | unary (f : Float → Float)
  | binary (f : Float → Float → Float)

namespace Rule

def arity : Rule → Nat
  | unary _ => 1
  | binary _ => 2

def call : Rule → List Float → Float
  | unary f, x :: _ => f x
  | binary f, x :: y :: _ => f x y
  | _, _ => nan

end Rule

def all : List ElementaryFunction :=
  [sqrt, cbrt, sin, cos, tan, asin, acos, atan, sinh, cosh, tanh, asinh, acosh, atanh,
    floor, ceil, round, abs, exp, ln, log2, log10, atan2, hypot, fmod, min, max]

def name : ElementaryFunction → String
  | sqrt => "sqrt"
  | cbrt => "cbrt"
  | sin => "sin"
  | cos => "cos"
  | tan => "tan"
  | asin => "asin"
  | acos => "acos"
  | atan => "atan"
  | sinh => "sinh"
  | cosh => "cosh"
  | tanh => "tanh"
  | asinh => "asinh"
  | acosh => "acosh"
  | atanh => "atanh"
  | floor => "floor"
  | ceil => "ceil"
  | round => "round"
  | abs => "abs"
  | exp => "exp"
  | ln => "ln"
  | log2 => "log2"
  | log10 => "log10"
  | atan2 => "atan2"
  | hypot => "hypot"
  | fmod => "fmod"
  | min => "min"
  | max => "max"

/-- Halves are rounded away from zero; the logarithm without a base is the
natural one. -/
def rule [PairFunctions] : ElementaryFunction → Rule
  | sqrt => .unary Float.sqrt
  | cbrt => .unary Float.cbrt
  | sin => .unary Float.sin
  | cos => .unary Float.cos
  | tan => .unary Float.tan
  | asin => .unary Float.asin
  | acos => .unary Float.acos
  | atan => .unary Float.atan
  | sinh => .unary Float.sinh
  | cosh => .unary Float.cosh
  | tanh => .unary Float.tanh
  | asinh => .unary Float.asinh
  | acosh => .unary Float.acosh
  | atanh => .unary Elementary.artanh
  | floor => .unary Float.floor
  | ceil => .unary Float.ceil
  | round => .unary Float.round
  | abs => .unary Float.abs
  | exp => .unary Float.exp
  | ln => .unary Float.log
  | log2 => .unary Float.log2
  | log10 => .unary Float.log10
  | atan2 => .binary PairFunctions.atan2
  | hypot => .binary PairFunctions.hypot
  | fmod => .binary PairFunctions.fmod
  | min => .binary PairFunctions.min
  | max => .binary PairFunctions.max

instance [PairFunctions] : Callable ElementaryFunction where
  name := name
  arity f := f.rule.arity
  call f := f.rule.call

end ElementaryFunction

/-- All standard functions. -/
def Library.standard [PairFunctions] : Library ElementaryFunction :=
  .ofList ElementaryFunction.all

/-- The functions of two numbers by their descriptions: the remainder is exact, and a NaN
counts as missing where an extreme is taken. -/
instance : PairFunctions where
  atan2 := Float.atan2
  hypot := Elementary.hypotenuse
  fmod := Elementary.remainder
  min := Elementary.smaller
  max := Elementary.larger

end FormulaEngine
