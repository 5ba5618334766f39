import LatentExpr.Value.Convert

/-!
Three equalities: strict equality compares containers by identity, loose equality converts operands of
different types, and structural equality compares contents. Structural equality takes a pair of
containers that it is already comparing for equal, so it ends on cyclic containers too.
-/
namespace LatentExpr

namespace Value

/-- Same type and same value; a container, function or pending value equals itself alone. -/
def strictEqual : Value → Value → Bool
  | number a, number b => a.equal b
  | a, b => a = b

/-- Strict equality, but NaN equals itself. -/
def sameValueZero : Value → Value → Bool
  | number a, number b => a.equal b || (a.isNaN && b.isNaN)
  | a, b => a = b

/-- A boolean as a number. -/
def unboolean : Value → Value
  | bool b => ofNat b.toNat
  | v => v

end Value

namespace Heap

/-- A container or function as its text, when it is compared with a number or a text. -/
def comparand (h : Heap) (v other : Value) : Value :=
  match other.kind, v.kind with
  | .number, .array | .number, .object | .number, .function
  | .string, .array | .string, .object | .string, .function => h.toPrimitive v
  | _, _ => v

/-- Loose equality of operands of which none is a boolean, `undefined` or `null`. -/
def mixedEqual (h : Heap) (a b : Value) : Bool :=
  match h.comparand a b, h.comparand b a with
  | .number a, .number b => a.equal b
  | .number a, .string b => a.equal (.ofText b)
  | .string a, .number b => (Number.ofText a).equal b
  | .string a, .string b => a = b
  | _, _ => false

/-- Loose equality: strict within a type, `undefined` and `null` equal each other and nothing else,
and other operands are compared as primitives and numbers. -/
def looseEqual (h : Heap) (a b : Value) : Bool :=
  if a.kind = b.kind then a.strictEqual b
  else if a.isNullish || b.isNullish then a.isNullish && b.isNullish
  else h.mixedEqual a.unboolean b.unboolean

/-- Whether two containers have the same contents, given the pairs that are being compared. `fuel`
bounds the depth. -/
def sameContents (h : Heap) : Nat → List (Value × Value) → Value → Value → Bool
  | 0, _, _, _ => false
  | fuel + 1, track, a, b =>
    match a, b with
    | .array i, .array j =>
      if i = j || track.contains (a, b) then true
      else
        let xs := (h.elements i).toList
        let ys := (h.elements j).toList
        xs.length == ys.length &&
          (xs.zip ys).all fun (x, y) => h.sameContents fuel ((a, b) :: track) x y
    | .object i, .object j =>
      if i = j || track.contains (a, b) then true
      else
        let xs := h.fields i
        let ys := h.fields j
        xs.length == ys.length &&
          xs.all fun (key, x) =>
            match ys.get? key with
            | some y => h.sameContents fuel ((a, b) :: track) x y
            | none => false
    | a, b => a.sameValueZero b

/-- Equality of contents. No walk is deeper than there are pairs of containers. -/
def structuralEqual (h : Heap) (a b : Value) : Bool :=
  h.sameContents (h.size * h.size + 2) [] a b

end Heap

end LatentExpr
