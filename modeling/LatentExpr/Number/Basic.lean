import LatentExpr.Number.Magnitude

/-!
Numbers of the expression language: binary64 with one undistinguished NaN.

Arithmetic is exact on units followed by one rounding, so an operation's result is by definition the
number nearest to the exact result. Zeros keep their sign but compare equal, and NaN equals nothing.
-/
namespace LatentExpr

inductive Number where
  | nan
  | signed (negative : Bool) (magnitude : Magnitude)
deriving DecidableEq

namespace Number

def zero : Number := .signed false .zero

def infinity : Number := .signed false .infinite

instance : Inhabited Number := ⟨zero⟩

def isNaN : Number → Bool
  | .nan => true
  | .signed .. => false

/-- Either zero. -/
def isZero : Number → Bool
  | .nan => false
  | .signed _ m => m.isZero

/-! ### Whole numbers and bit patterns -/

def ofNat (n : Nat) : Number := .signed false (.round (n * Magnitude.unitsInOne) 1)

def ofInt (n : Int) : Number :=
  .signed (decide (n < 0)) (.round (n.natAbs * Magnitude.unitsInOne) 1)

/-- The number as a whole number, if it is one. Both zeros are `0`. -/
def toInt? : Number → Option Int
  | .nan => none
  | .signed negative m =>
    if m.isInfinite || m.units % Magnitude.unitsInOne != 0 then none
    else
      let n : Int := (m.units / Magnitude.unitsInOne : Nat)
      some (if negative then -n else n)

/-- The bit of a 64-bit pattern that tells the sign. -/
def signBit : Nat := Nat.pow 2 63

/-- The number of a 64-bit pattern. Every NaN pattern is the one NaN. -/
def ofBits (bits : Nat) : Number :=
  let code := bits % signBit
  if Magnitude.infinite.code < code then .nan
  else .signed (decide (signBit ≤ bits % (2 * signBit))) (.ofCode code)

/-- The 64-bit pattern of a number; NaN has the pattern of a quiet NaN. -/
def toBits : Number → Nat
  | .nan => Magnitude.infinite.code + binade / 2
  | .signed negative m => (if negative then signBit else 0) + m.code

/-! ### Sign and order -/

def neg : Number → Number
  | .nan => .nan
  | .signed negative m => .signed (!negative) m

def abs : Number → Number
  | .nan => .nan
  | .signed _ m => .signed false m

/-- A key whose order is the order of numbers; the zeros share it. -/
def orderKey (negative : Bool) (m : Magnitude) : Int := if negative then -m.code else m.code

/-- How two numbers compare, `none` when either is NaN. -/
def compare? : Number → Number → Option Ordering
  | .signed n a, .signed m b => some (compare (orderKey n a) (orderKey m b))
  | _, _ => none

/-- Numeric equality: NaN differs from itself, and the zeros are equal. -/
def equal (a b : Number) : Bool := compare? a b == some .eq

def below (a b : Number) : Bool := compare? a b == some .lt

/-! ### Arithmetic -/

/-- The units of a finite number, with its sign. -/
def signedUnits (negative : Bool) (m : Magnitude) : Int := if negative then -m.units else m.units

/-- The number nearest to a whole number of units. Zero is positive. -/
def ofUnits (units : Int) : Number := .signed (decide (units < 0)) (.round units.natAbs 1)

def add : Number → Number → Number
  | .signed n a, .signed m b =>
    if a.isInfinite then
      if b.isInfinite && n != m then .nan else .signed n a
    else if b.isInfinite then .signed m b
    else if a.isZero && b.isZero then .signed (n && m) .zero
    else ofUnits (signedUnits n a + signedUnits m b)
  | _, _ => .nan

def sub (a b : Number) : Number := add a b.neg

def mul : Number → Number → Number
  | .signed n a, .signed m b =>
    if a.isInfinite || b.isInfinite then
      if a.isZero || b.isZero then .nan else .signed (n != m) .infinite
    else .signed (n != m) (.round (a.units * b.units) Magnitude.unitsInOne)
  | _, _ => .nan

def div : Number → Number → Number
  | .signed n a, .signed m b =>
    if a.isInfinite then
      if b.isInfinite then .nan else .signed (n != m) .infinite
    else if b.isInfinite then .signed (n != m) .zero
    else if b.isZero then
      if a.isZero then .nan else .signed (n != m) .infinite
    else .signed (n != m) (.round (a.units * Magnitude.unitsInOne) b.units)
  | _, _ => .nan

/-- The remainder of the quotient cut toward zero. It has the sign of the dividend and is exact. -/
def rem : Number → Number → Number
  | .signed n a, .signed _ b =>
    if a.isInfinite || b.isZero then .nan
    else if b.isInfinite then .signed n a
    else .signed n (.round (a.units % b.units) 1)
  | _, _ => .nan

end Number

end LatentExpr
