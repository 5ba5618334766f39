import LatentExpr.Number.Shortest

/-!
Values. Containers, host functions and pending values are known by their place in the world that
holds them, so two values are the same container exactly when they are equal.
-/
namespace LatentExpr

/-- The built-in methods of arrays. -/
inductive ArrayMethod where
  | concat
  | includes
  | indexOf
  | join
  | push
  | slice
deriving DecidableEq

/-- The built-in methods of strings. -/
inductive StringMethod where
  | endsWith
  | includes
  | indexOf
  | startsWith
  | toLowerCase
  | toUpperCase
  | trim
deriving DecidableEq

/-- What can be called: a built-in method or a function of the host. -/
inductive Callable where
  | arrayMethod (method : ArrayMethod)
  | stringMethod (method : StringMethod)
  | host (id : Nat)
deriving DecidableEq

inductive Value where
  | undefined
  | null
  | bool (b : Bool)
  | number (n : Number)
  | string (s : String)
  | array (id : Nat)
  | object (id : Nat)
  | function (f : Callable)
  /-- A value that may not be available yet. -/
  | pending (id : Nat)
deriving DecidableEq

/-- The type of a value. -/
inductive Kind where
  | undefined
  | null
  | boolean
  | number
  | string
  | array
  | object
  | function
  | pending
deriving DecidableEq

def Kind.name : Kind → String
  | undefined => "undefined"
  | null => "null"
  | boolean => "boolean"
  | number => "number"
  | string => "string"
  | array => "array"
  | object => "object"
  | function => "function"
  | pending => "pending"

namespace Value

instance : Inhabited Value := ⟨undefined⟩

def kind : Value → Kind
  | undefined => .undefined
  | null => .null
  | bool _ => .boolean
  | number _ => .number
  | string _ => .string
  | array _ => .array
  | object _ => .object
  | function _ => .function
  | pending _ => .pending

def isNullish : Value → Bool
  | undefined | null => true
  | _ => false

def isPending : Value → Bool
  | pending _ => true
  | _ => false

def asBool? : Value → Option Bool
  | bool b => some b
  | _ => none

/-- Whether a value counts as true in a condition. -/
def truthy : Value → Bool
  | undefined | null => false
  | bool b => b
  | number n => !n.isZero && !n.isNaN
  | string s => s ≠ ""
  | array _ | object _ | function _ | pending _ => true

/-- A number counting something. -/
def ofNat (n : Nat) : Value := number (.ofNat n)

end Value

end LatentExpr
