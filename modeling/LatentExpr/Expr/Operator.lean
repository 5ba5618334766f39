import LatentExpr.Symbols.Group

/-!
Operators of the expression language. A symbol that has a built-in meaning at its level is that
operator; any other symbol is a custom operator, which only a configuration gives a meaning.
-/
namespace LatentExpr

inductive LogicalOp where
  | and
  | or
deriving DecidableEq

namespace LogicalOp

def symbol : LogicalOp → String
  | and => "&&"
  | or => "||"

def ofSymbol? (symbol : String) : Option LogicalOp :=
  if symbol = "&&" then some and else if symbol = "||" then some or else none

end LogicalOp

/-- The levels of the binary operators whose operands are both always evaluated, the loosest first. -/
inductive BinaryLevel where
  | equality
  | relational
  | additive
  | multiplicative
deriving DecidableEq

namespace BinaryLevel

def all : List BinaryLevel := [equality, relational, additive, multiplicative]

def group : BinaryLevel → OperatorGroup
  | equality => .equality
  | relational => .relational
  | additive => .additive
  | multiplicative => .multiplicative

end BinaryLevel

inductive BinaryOp where
  | looseEq
  | strictEq
  | looseNe
  | strictNe
  | lt
  | le
  | gt
  | ge
  | add
  | sub
  | mul
  | div
  | rem
  | custom (symbol : String)
deriving DecidableEq

namespace BinaryOp

def symbol : BinaryOp → String
  | looseEq => "=="
  | strictEq => "==="
  | looseNe => "!="
  | strictNe => "!=="
  | lt => "<"
  | le => "<="
  | gt => ">"
  | ge => ">="
  | add => "+"
  | sub => "-"
  | mul => "*"
  | div => "/"
  | rem => "%"
  | custom symbol => symbol

/-- The built-in operators of a level. -/
def builtIn : BinaryLevel → List BinaryOp
  | .equality => [looseEq, strictEq, looseNe, strictNe]
  | .relational => [lt, le, gt, ge]
  | .additive => [add, sub]
  | .multiplicative => [mul, div, rem]

/-- The operator that a symbol names at a level. -/
def ofSymbol (level : BinaryLevel) (symbol : String) : BinaryOp :=
  ((builtIn level).find? fun op => op.symbol = symbol).getD (custom symbol)

/-- The operator that a symbol names at the first level where it has a built-in meaning. -/
def ofAnyLevel (symbol : String) : BinaryOp :=
  ((BinaryLevel.all.flatMap builtIn).find? fun op => op.symbol = symbol).getD (custom symbol)

end BinaryOp

inductive UnaryOp where
  | plus
  | neg
  | not
  | custom (symbol : String)
deriving DecidableEq

namespace UnaryOp

def symbol : UnaryOp → String
  | plus => "+"
  | neg => "-"
  | not => "!"
  | custom symbol => symbol

/-- The operator that a symbol names before its operand. -/
def ofSymbol (symbol : String) : UnaryOp :=
  ([plus, neg, not].find? fun op => op.symbol = symbol).getD (custom symbol)

end UnaryOp

end LatentExpr
