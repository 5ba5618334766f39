import LatentExpr.Eval.Operators
import LatentExpr.Symbols.Group
import LatentExpr.Text.Blank
import LatentExpr.Text.CharClass

/-!
Configuration of the operators that an engine knows. Requests add a symbol to a group with a meaning or
take one away; the first request that is refused makes the whole configuration fail, and a refused
request changes nothing else.
-/
namespace LatentExpr

/-- Why a request is refused. -/
inductive ConfigError where
  /-- The group takes no binary operators. -/
  | notBinaryGroup (group : OperatorGroup) (symbol : String)
  /-- The symbol would be read as something other than an operator. -/
  | invalidSymbol (symbol : String)
deriving DecidableEq

def ConfigError.message : ConfigError → String
  | notBinaryGroup group symbol =>
    "cannot add binary operator `" ++ symbol ++ "` to the " ++ group.name ++ " group"
  | invalidSymbol symbol => "invalid operator symbol: " ++ Text.quoted symbol

/-- An engine: a table of symbols and the meanings that were configured. -/
structure Engine (σ : Type) where
  symbols : SymbolTable
  operators : Operators σ

/-- The engine of the built-in operators. -/
def Engine.default {σ : Type} : Engine σ := ⟨.builtIn, .empty⟩

/-- A configuration under way: the symbols of each group, the meanings, and the first error. -/
structure EngineBuilder (σ : Type) where
  groups : List (OperatorGroup × List String)
  operators : Operators σ
  error : Option ConfigError

namespace EngineBuilder

variable {σ : Type}

/-- The configuration of the built-in operators. -/
def start : EngineBuilder σ := ⟨OperatorGroup.all.map fun g => (g, g.builtIn), .empty, none⟩

/-- Whether a symbol can be read as an operator: it starts like no other token and like no comment, and
it holds no white space. -/
def validSymbol (symbol : String) : Bool :=
  match symbol.toList with
  | [] => false
  | first :: rest =>
    !(Text.isIdentStart first || first.isDigit || Text.isQuote first)
      && !(first :: rest).any Text.isWhite
      && !(first = '/' && (rest.head? = some '/' || rest.head? = some '*'))

/-- Refuse a request, unless one was refused before. -/
def refuse (b : EngineBuilder σ) (e : ConfigError) : EngineBuilder σ :=
  { b with error := b.error <|> some e }

/-- The symbols of one group changed. -/
def changeGroup (group : OperatorGroup) (change : List String → List String)
    (b : EngineBuilder σ) : EngineBuilder σ :=
  { b with
    groups := b.groups.map fun (g, symbols) => (g, if g = group then change symbols else symbols) }

/-- A symbol added to a group, unless the group has it. -/
def addSymbol (group : OperatorGroup) (symbol : String) (b : EngineBuilder σ) : EngineBuilder σ :=
  b.changeGroup group fun symbols => if symbols.contains symbol then symbols else symbols ++ [symbol]

/-- Whether binary operators may be added to a group. -/
def takesBinary (group : OperatorGroup) : Bool := group.acceptsCustom && group ≠ .unary

/-- Give a symbol a meaning as a binary operator of a group. -/
def binary (b : EngineBuilder σ) (group : OperatorGroup) (symbol : String)
    (meaning : BinaryMeaning σ) : EngineBuilder σ :=
  if !takesBinary group then b.refuse (.notBinaryGroup group symbol)
  else if !validSymbol symbol then b.refuse (.invalidSymbol symbol)
  else { b.addSymbol group symbol with operators := b.operators.addBinary symbol meaning }

/-- Give a symbol a meaning as a unary operator. -/
def unary (b : EngineBuilder σ) (symbol : String) (meaning : UnaryMeaning σ) : EngineBuilder σ :=
  if !validSymbol symbol then b.refuse (.invalidSymbol symbol)
  else { b.addSymbol .unary symbol with operators := b.operators.addUnary symbol meaning }

/-- Take a symbol away from a group, with its meaning as a unary operator if the group is the unary
one, as a binary operator if the group takes those. -/
def remove (b : EngineBuilder σ) (group : OperatorGroup) (symbol : String) : EngineBuilder σ :=
  let removed := b.changeGroup group fun symbols => symbols.filter (· ≠ symbol)
  if group = .unary then { removed with operators := b.operators.removeUnary symbol }
  else if group.acceptsCustom then { removed with operators := b.operators.removeBinary symbol }
  else removed

/-- The configured engine, unless a request was refused. -/
def build (b : EngineBuilder σ) : Except ConfigError (Engine σ) :=
  match b.error with
  | some e => .error e
  | none => .ok ⟨.ofGroups (b.groups.map fun (g, symbols) => (g.name, symbols)), b.operators⟩

end EngineBuilder

end LatentExpr
