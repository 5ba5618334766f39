import LatentExpr.Scenario.Stage

/-!
The meanings that a script can give to configured operators.
-/
namespace LatentExpr

/-- Meanings for two operands. -/
inductive BinaryScript where
  /-- The texts of the operands one after the other. -/
  | concat
  /-- A fresh array of the operands. -/
  | pair
  | left
  | right
  /-- The larger of two numbers. -/
  | max
  /-- Whether two numbers differ by less than a hundredth. -/
  | near
  /-- The right operand, two ticks later. -/
  | later
  | fail
deriving DecidableEq

/-- Meanings for one operand. -/
inductive UnaryScript where
  /-- The length of an array, or the number of bytes of a text. -/
  | length
  /-- A fresh array of the operand. -/
  | wrap
  /-- The name of the operand's type. -/
  | type
  | same
  /-- Half of a number. -/
  | half
  /-- The operand, two ticks later. -/
  | later
  | fail
deriving DecidableEq

/-- The number that an operand has to be. -/
def requireNumber : Value → Except EvalError Number
  | .number n => .ok n
  | other => .error (.host ("expected a number, found " ++ other.kind.name))

/-- The larger of two numbers, the other one if either is NaN. -/
def Number.larger (a b : Number) : Number :=
  if a.isNaN then b else if a.below b then b else a

/-- Whether two numbers differ by less than a hundredth. -/
def Number.isNear (a b : Number) : Bool :=
  (a.sub b).abs.below ((div (.ofNat 1) (.ofNat 100)))

namespace Scene

/-- A pending value that is available two ticks after it is first asked for. -/
def delayed (v : Value) (w : Scene) : Outcome × Scene :=
  let (p, w) := w.newPending (.delay 2 none (.ok v) none)
  (.ok p, w)

/-- A fresh array as an outcome. -/
def listed (elements : List Value) (w : Scene) : Outcome × Scene :=
  let (v, heap) := w.heap.newArray elements.toArray
  (.ok v, { w with heap })

end Scene

/-- The meaning of the binary operator `symbol` by a script. -/
def BinaryScript.meaning (script : BinaryScript) (symbol : String) : BinaryMeaning Stage :=
  fun a b w =>
    match script with
    | .concat => (.ok (.string (w.heap.text a ++ w.heap.text b)), w)
    | .pair => Scene.listed [a, b] w
    | .left => (.ok a, w)
    | .right => (.ok b, w)
    | .max => ((do return .number ((← requireNumber a).larger (← requireNumber b))), w)
    | .near => ((do return .bool ((← requireNumber a).isNear (← requireNumber b))), w)
    | .later => Scene.delayed b w
    | .fail => (.error (.host ("binary " ++ symbol ++ " failed")), w)

/-- The meaning of the unary operator `symbol` by a script. -/
def UnaryScript.meaning (script : UnaryScript) (symbol : String) : UnaryMeaning Stage :=
  fun v w =>
    match script with
    | .length =>
      match v with
      | .array id => (.ok (.ofNat (w.heap.elements id).size), w)
      | v => (.ok (.ofNat (w.heap.text v).utf8ByteSize), w)
    | .wrap => Scene.listed [v] w
    | .type => (.ok (.string v.kind.name), w)
    | .same => (.ok v, w)
    | .half => ((do return .number (Number.div (← requireNumber v) (.ofNat 2))), w)
    | .later => Scene.delayed v w
    | .fail => (.error (.host ("unary " ++ symbol ++ " failed")), w)

end LatentExpr
