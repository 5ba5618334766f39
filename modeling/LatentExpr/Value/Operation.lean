import LatentExpr.Expr.Operator
import LatentExpr.Value.Equality
import LatentExpr.Text.Units

/-!
The built-in meaning of operators.
-/
namespace LatentExpr

namespace Heap

/-- The sum of two operands: their texts one after the other if either is a text as a primitive, the
sum of their numbers otherwise. -/
def add (h : Heap) (a b : Value) : Value :=
  match h.toPrimitive a, h.toPrimitive b with
  | .string s, b => .string (s ++ b.plainText)
  | a, .string s => .string (a.plainText ++ s)
  | a, b => .number ((h.toNumber a).add (h.toNumber b))

/-- How two operands compare: two texts by their UTF-16 units, other operands as numbers. `none` when
either number is NaN. -/
def compare? (h : Heap) (a b : Value) : Option Ordering :=
  match h.toPrimitive a, h.toPrimitive b with
  | .string s, .string t => some (Text.compareUnits (Text.units s.toList) (Text.units t.toList))
  | a, b => (h.toNumber a).compare? (h.toNumber b)

/-- An operation on the numbers of two operands. -/
def arithmetic (h : Heap) (op : Number → Number → Number) (a b : Value) : Value :=
  .number (op (h.toNumber a) (h.toNumber b))

end Heap

/-- The value of a binary operator by its built-in meaning. A custom operator has none. -/
def BinaryOp.apply (h : Heap) (op : BinaryOp) (a b : Value) : Outcome :=
  match op with
  | .looseEq => .ok (.bool (h.looseEqual a b))
  | .looseNe => .ok (.bool (!h.looseEqual a b))
  | .strictEq => .ok (.bool (a.strictEqual b))
  | .strictNe => .ok (.bool (!a.strictEqual b))
  | .lt => .ok (.bool (h.compare? a b == some .lt))
  | .le => .ok (.bool (h.compare? a b == some .lt || h.compare? a b == some .eq))
  | .gt => .ok (.bool (h.compare? a b == some .gt))
  | .ge => .ok (.bool (h.compare? a b == some .gt || h.compare? a b == some .eq))
  | .add => .ok (h.add a b)
  | .sub => .ok (h.arithmetic Number.sub a b)
  | .mul => .ok (h.arithmetic Number.mul a b)
  | .div => .ok (h.arithmetic Number.div a b)
  | .rem => .ok (h.arithmetic Number.rem a b)
  | .custom symbol => .error (.unsupportedOperator symbol)

/-- The value of a unary operator by its built-in meaning. A custom operator has none. -/
def UnaryOp.apply (h : Heap) (op : UnaryOp) (v : Value) : Outcome :=
  match op with
  | .plus => .ok (.number (h.toNumber v))
  | .neg => .ok (.number (h.toNumber v).neg)
  | .not => .ok (.bool !v.truthy)
  | .custom symbol => .error (.unsupportedOperator symbol)

end LatentExpr
