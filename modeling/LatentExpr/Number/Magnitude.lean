/-!
Magnitudes of binary64 numbers, from zero up to infinity.

A magnitude is its code: the codes of a step of exponent are consecutive, so the order of magnitudes
is the order of codes, and the code after the largest finite one is infinity. Every finite magnitude
is a whole number of *units* of `2 ^ -1074`, which makes exact arithmetic a matter of natural numbers;
`round` takes an exact quotient of units back to the nearest magnitude, ties to the even code.
-/
namespace LatentExpr

/-- How many codes share one exponent: two to the fifty-second. -/
def binade : Nat := Nat.pow 2 52

/-- A binary64 number without its sign: the eleven exponent and fifty-two fraction bits, read as one
number. The code `2047 * binade` is infinity, and no code lies above it. -/
structure Magnitude where
  code : Nat
  code_le : code ≤ 2047 * binade
deriving DecidableEq

namespace Magnitude

def zero : Magnitude := ⟨0, Nat.zero_le _⟩

def infinite : Magnitude := ⟨2047 * binade, Nat.le_refl _⟩

instance : Inhabited Magnitude := ⟨zero⟩

/-- The magnitude with a code, infinity for every code that is too large. -/
def ofCode (code : Nat) : Magnitude := ⟨min code (2047 * binade), Nat.min_le_right _ _⟩

def isZero (x : Magnitude) : Bool := x.code == 0

def isInfinite (x : Magnitude) : Bool := x.code == 2047 * binade

/-- The whole significand of a finite magnitude: below twice a binade, and at least one
binade unless the magnitude is below the normal range. -/
def significand (x : Magnitude) : Nat :=
  if x.code < binade then x.code else x.code % binade + binade

/-- How many times the significand is doubled to count units. -/
def shift (x : Magnitude) : Nat := x.code / binade - 1

/-- How many units there are in one. -/
def unitsInOne : Nat := Nat.pow 2 1074

/-- The units of a finite magnitude, exactly. -/
def units (x : Magnitude) : Nat := x.significand * Nat.pow 2 x.shift

/-- The whole number nearest to `num / den`, the even one where two are equally near. -/
def nearestEven (num den : Nat) : Nat :=
  let below := num / den
  let rest := num % den
  if 2 * rest < den then below
  else if den < 2 * rest then below + 1
  else below + below % 2

/-- The magnitude nearest to `num / den` units, the one with the even significand where two are
equally near. A significand that rounds up to the next power of two carries into the exponent, as
codes are consecutive, and what lies beyond the largest finite magnitude is infinite. -/
def round (num den : Nat) : Magnitude :=
  let shift := (num / den).log2 - 52
  ofCode (shift * binade + nearestEven num (den * Nat.pow 2 shift))

end Magnitude

end LatentExpr
