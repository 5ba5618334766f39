import LatentExpr.Symbols.Table

/-!
The operator groups of the expression language and the symbols that belong to them from the start.
Each level of the grammar takes its operators from one group.
-/
namespace LatentExpr

inductive OperatorGroup where
  | assignment
  | logical
  | equality
  | relational
  | additive
  | multiplicative
  | unary
  | punctuation
deriving DecidableEq

namespace OperatorGroup

/-- Every group, the loosest first. -/
def all : List OperatorGroup :=
  [assignment, logical, equality, relational, additive, multiplicative, unary, punctuation]

def name : OperatorGroup → String
  | assignment => "Assignment"
  | logical => "Logical"
  | equality => "Equality"
  | relational => "Relational"
  | additive => "Additive"
  | multiplicative => "Multiplicative"
  | unary => "Unary"
  | punctuation => "Punctuation"

def ofName? (name : String) : Option OperatorGroup := all.find? fun g => g.name = name

/-- The symbols of a group before any configuration. -/
def builtIn : OperatorGroup → List String
  | assignment => ["="]
  | logical => ["&&", "||"]
  | equality => ["===", "==", "!==", "!="]
  | relational => ["<", "<=", ">", ">="]
  | additive => ["+", "-"]
  | multiplicative => ["*", "/", "%"]
  | unary => ["+", "-", "!"]
  | punctuation => ["(", ")", "[", "]", "\x7b", "\x7d", ",", ".", "?", ":"]

/-- Whether symbols may be added. Assignment, logical operators and punctuation carry the shape of the
grammar, so their groups only shrink. -/
def acceptsCustom : OperatorGroup → Bool
  | equality | relational | additive | multiplicative | unary => true
  | assignment | logical | punctuation => false

end OperatorGroup

/-- The table of the built-in symbols. -/
def SymbolTable.builtIn : SymbolTable :=
  .ofGroups (OperatorGroup.all.map fun g => (g.name, g.builtIn))

end LatentExpr
