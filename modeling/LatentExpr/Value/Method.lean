import LatentExpr.Text.Casing
import LatentExpr.Value.Equality
import LatentExpr.Value.Property

/-!
The built-in methods of arrays and strings. A method called on another type of receiver fails; an
argument that is missing is `undefined`.
-/
namespace LatentExpr

/-- The place that an argument names in a sequence of `length` members: its number cut to a whole
number, counted from the end if that is negative, and never outside the sequence. -/
def relativeIndex (h : Heap) (value : Value) (length default : Nat) : Nat :=
  match value with
  | .undefined => default
  | value =>
    match h.toNumber value with
    | .nan => 0
    | .signed negative m =>
      let distance := if m.isInfinite then length else m.units / Magnitude.unitsInOne
      if negative ∧ 0 < distance then length - distance else min distance length

/-- The failure of a method on a receiver of the wrong type. -/
def wrongReceiver (method expected : String) (receiver : Value) : EvalError :=
  .host (method ++ ": receiver is " ++ receiver.kind.name ++ ", not " ++ expected)

/-- An index, or minus one where there is none. -/
def indexValue : Option Nat → Value
  | some index => .ofNat index
  | none => .number (.ofInt (-1))

/-- An argument, `undefined` if it is missing. -/
def argument (args : List Value) (index : Nat) : Value := args.getD index .undefined

namespace ArrayMethod

/-- The elements of the array with the arguments behind them; an array among the arguments gives its
elements. -/
def concatenated (h : Heap) (elements : Array Value) (args : List Value) : Array Value :=
  args.foldl (fun all arg =>
    match arg with
    | .array id => all ++ h.elements id
    | v => all.push v) elements

/-- The texts of the elements between separators; `undefined` and `null` are empty. -/
def joined (h : Heap) (elements : Array Value) (separator : String) : String :=
  String.intercalate separator
    (elements.toList.map fun v => if v.isNullish then "" else h.text v)

/-- Call a method on the array `id`. -/
def apply (h : Heap) (id : Nat) (args : List Value) : ArrayMethod → Value × Heap
  | concat => h.newArray (concatenated h (h.elements id) args)
  | includes => (.bool ((h.elements id).any fun v => v.sameValueZero (argument args 0)), h)
  | indexOf =>
    (indexValue ((h.elements id).toList.findIdx? fun v => v.strictEqual (argument args 0)), h)
  | join =>
    let separator := match argument args 0 with
      | .undefined => ","
      | v => h.text v
    (.string (joined h (h.elements id) separator), h)
  | push =>
    let after := args.foldl (fun h v => h.push id v) h
    (.ofNat (after.elements id).size, after)
  | slice =>
    let elements := h.elements id
    let first := relativeIndex h (argument args 0) elements.size 0
    let last := relativeIndex h (argument args 1) elements.size elements.size
    h.newArray (elements.extract first last)

end ArrayMethod

namespace StringMethod

/-- Call a method on the string `s`. -/
def apply (h : Heap) (s : String) (args : List Value) (method : StringMethod) : Value :=
  let text := s.toList
  let needle := (h.text (argument args 0)).toList
  match method with
  | endsWith => .bool (needle.isSuffixOf text)
  | includes => .bool (Text.unitsBefore? needle text).isSome
  | indexOf => indexValue (Text.unitsBefore? needle text)
  | startsWith => .bool (needle.isPrefixOf text)
  | toLowerCase => .string (String.ofList (Text.toLower text))
  | toUpperCase => .string (String.ofList (Text.toUpper text))
  | trim => .string (String.ofList (Text.trim text))

end StringMethod

namespace Heap

/-- Call a method of arrays on a receiver. -/
def callArrayMethod (h : Heap) (method : ArrayMethod) (receiver : Value) (args : List Value) :
    Outcome × Heap :=
  match receiver with
  | .array id =>
    let (value, after) := method.apply h id args
    (.ok value, after)
  | other => (.error (wrongReceiver method.name "array" other), h)

/-- Call a method of strings on a receiver. -/
def callStringMethod (h : Heap) (method : StringMethod) (receiver : Value) (args : List Value) :
    Outcome :=
  match receiver with
  | .string s => .ok (method.apply h s args)
  | other => .error (wrongReceiver method.name "string" other)

end Heap

end LatentExpr
