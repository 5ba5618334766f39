import LatentExpr.Text.Units
import LatentExpr.Value.Convert

/-!
Reading and writing properties. Objects are keyed by text. Arrays have their elements under canonical
indices, a length, and methods; strings have one character under each index, a length, and methods,
all of it measured in UTF-16 units. No other value has properties.
-/
namespace LatentExpr

namespace ArrayMethod

def all : List ArrayMethod := [concat, includes, indexOf, join, push, slice]

def name : ArrayMethod → String
  | concat => "concat"
  | includes => "includes"
  | indexOf => "indexOf"
  | join => "join"
  | push => "push"
  | slice => "slice"

def ofName? (name : String) : Option ArrayMethod := all.find? fun m => m.name = name

end ArrayMethod

namespace StringMethod

def all : List StringMethod :=
  [endsWith, includes, indexOf, startsWith, toLowerCase, toUpperCase, trim]

def name : StringMethod → String
  | endsWith => "endsWith"
  | includes => "includes"
  | indexOf => "indexOf"
  | startsWith => "startsWith"
  | toLowerCase => "toLowerCase"
  | toUpperCase => "toUpperCase"
  | trim => "trim"

def ofName? (name : String) : Option StringMethod := all.find? fun m => m.name = name

end StringMethod

/-- The index that a key names: decimal digits without a leading zero, up to the largest
index. -/
def arrayIndex? (key : String) : Option Nat :=
  let digits := key.toList
  if digits.isEmpty || !digits.all Char.isDigit then none
  else if digits.head? = some '0' ∧ 1 < digits.length then none
  else
    let index := Decimal.naturalOf digits
    if index ≤ Heap.maxIndex then some index else none

namespace Heap

/-- A property of an array. -/
def arrayProperty (h : Heap) (id : Nat) (key : String) : Value :=
  match arrayIndex? key with
  | some index => ((h.elements id)[index]?).getD .undefined
  | none =>
    if key = "length" then .ofNat (h.elements id).size
    else ((ArrayMethod.ofName? key).map fun m => Value.function (.arrayMethod m)).getD .undefined

/-- The largest length that a string tells; a longer one tells this. -/
def maxStringLength : Nat := 4294967295

/-- A property of a string. -/
def stringProperty (s : String) (key : String) : Value :=
  match arrayIndex? key with
  | some index =>
    (((Text.units s.toList)[index]?).map fun unit =>
      Value.string (String.ofList [Text.unitChar unit])).getD .undefined
  | none =>
    if key = "length" then .ofNat (min (Text.units s.toList).length maxStringLength)
    else ((StringMethod.ofName? key).map fun m => Value.function (.stringMethod m)).getD .undefined

/-- Read a property. What is read may be pending. -/
def getProperty (h : Heap) (target : Value) (key : String) : Outcome :=
  match target with
  | .undefined | .null => .error (.cannotRead key target.kind)
  | .object id => .ok (((h.fields id).get? key).getD .undefined)
  | .array id => .ok (h.arrayProperty id key)
  | .string s => .ok (stringProperty s key)
  | .bool _ | .number _ | .function _ | .pending _ => .ok .undefined

/-- The length that a value asks for when it is written to the length of an array. -/
def requestedLength (h : Heap) (value : Value) : Except EvalError Nat :=
  let n := h.toNumber value
  match n.toInt? with
  | some (.ofNat length) => .ok (min length maxIndex)
  | _ => .error (.invalidArrayLength n.toText)

/-- Write a property. -/
def setProperty (h : Heap) (target : Value) (key : String) (value : Value) :
    Except EvalError Heap :=
  match target with
  | .object id => .ok (h.setField id key value)
  | .array id =>
    match arrayIndex? key with
    | some index => h.setElement id index value
    | none =>
      if key = "length" then do h.setLength id (← h.requestedLength value)
      else .error (.cannotSet key target.kind)
  | _ => .error (.cannotSet key target.kind)

end Heap

end LatentExpr
