import LatentExpr.Eval.World
import LatentExpr.Text.Quoted
import LatentExpr.Value.Operation

/-!
Configured operators: meanings given to symbols, for two operands and for one. A meaning given to a
built-in symbol replaces the built-in one.
-/
namespace LatentExpr

/-- The meaning of a binary operator. -/
abbrev BinaryMeaning (σ : Type) := Value → Value → World σ → Outcome × World σ

/-- The meaning of a unary operator. -/
abbrev UnaryMeaning (σ : Type) := Value → World σ → Outcome × World σ

/-- Meanings by symbol. A symbol can have one for two operands and another for one. -/
structure Operators (σ : Type) where
  binary : List (String × BinaryMeaning σ)
  unary : List (String × UnaryMeaning σ)

namespace Operators

variable {σ : Type}

def empty : Operators σ := ⟨[], []⟩

def isEmpty (ops : Operators σ) : Bool := ops.binary.isEmpty && ops.unary.isEmpty

/-- Entries with a meaning for a symbol, in place of the one it had. -/
def put {α : Type} (symbol : String) (meaning : α) (entries : List (String × α)) :
    List (String × α) :=
  (symbol, meaning) :: entries.filter fun e => e.1 ≠ symbol

/-- Entries without a meaning for a symbol. -/
def drop {α : Type} (symbol : String) (entries : List (String × α)) : List (String × α) :=
  entries.filter fun e => e.1 ≠ symbol

def addBinary (ops : Operators σ) (symbol : String) (meaning : BinaryMeaning σ) : Operators σ :=
  { ops with binary := put symbol meaning ops.binary }

def addUnary (ops : Operators σ) (symbol : String) (meaning : UnaryMeaning σ) : Operators σ :=
  { ops with unary := put symbol meaning ops.unary }

def removeBinary (ops : Operators σ) (symbol : String) : Operators σ :=
  { ops with binary := drop symbol ops.binary }

def removeUnary (ops : Operators σ) (symbol : String) : Operators σ :=
  { ops with unary := drop symbol ops.unary }

def binary? (ops : Operators σ) (symbol : String) : Option (BinaryMeaning σ) :=
  ops.binary.lookup symbol

def unary? (ops : Operators σ) (symbol : String) : Option (UnaryMeaning σ) :=
  ops.unary.lookup symbol

/-- The value of a binary operator: by its configured meaning if it has one. -/
def applyBinary (ops : Operators σ) (op : BinaryOp) (a b : Value) (w : World σ) :
    Outcome × World σ :=
  match ops.binary? op.symbol with
  | some meaning => meaning a b w
  | none => (op.apply w.heap a b, w)

/-- The value of a unary operator: by its configured meaning if it has one. -/
def applyUnary (ops : Operators σ) (op : UnaryOp) (v : Value) (w : World σ) : Outcome × World σ :=
  match ops.unary? op.symbol with
  | some meaning => meaning v w
  | none => (op.apply w.heap v, w)

/-- Texts in ascending order between brackets. -/
def listText (symbols : List String) : String :=
  let sorted := symbols.mergeSort fun a b => !(b < a)
  "[" ++ String.intercalate ", " (sorted.map Text.quoted) ++ "]"

def toText (ops : Operators σ) : String :=
  "OperatorRegistry \x7b binary: " ++ listText (ops.binary.map Prod.fst) ++ ", unary: " ++
    listText (ops.unary.map Prod.fst) ++ " \x7d"

end Operators

end LatentExpr
