import LatentExpr.Number.Decimal

/-!
The text of a number: the fewest significant digits that read back as the same number, of those the
digits nearest to it, written positionally for moderate exponents and with an exponent otherwise.
-/
namespace LatentExpr

namespace Magnitude

/-- Four times the units of the midpoints below and above a finite magnitude: what lies between them
rounds to it. The gap below a power of two is half the gap above. -/
def midpoints (x : Magnitude) : Nat × Nat :=
  let gap := Nat.pow 2 x.shift
  let lower := if x.significand = binade ∧ 0 < x.shift then gap else 2 * gap
  (4 * x.units - lower, 4 * x.units + 2 * gap)

/-- Whether a value, given as `num / den` quarter units, rounds to a magnitude: strictly between the
midpoints, or at one of them if the significand is even. -/
def roundsTo (x : Magnitude) (num den : Nat) : Bool :=
  let (low, high) := x.midpoints
  if x.significand % 2 = 0 then decide (low * den ≤ num ∧ num ≤ high * den)
  else decide (low * den < num ∧ num < high * den)

/-- The decimal on the grid of multiples of `10 ^ exponent` that reads back as `x` and is nearest to
it, the larger one where two are equally near. Only the two neighbours of `x` can be nearest. -/
def onGrid? (x : Magnitude) (exponent : Int) : Option Decimal :=
  let (step, scale) := match exponent with
    | .ofNat e => (4 * unitsInOne * Nat.pow 10 e, 1)
    | .negSucc e => (4 * unitsInOne, Nat.pow 10 (e + 1))
  let value := 4 * x.units * scale
  let digits := value / step
  let down := digits * step
  let up := (digits + 1) * step
  match x.roundsTo down scale, x.roundsTo up scale with
  | true, true => some ⟨if value - down < up - value then digits else digits + 1, exponent⟩
  | true, false => some ⟨digits, exponent⟩
  | false, true => some ⟨digits + 1, exponent⟩
  | false, false => none

/-- How often units have to be multiplied by ten to reach one, at most `fuel` times. -/
def timesBelowOne (units : Nat) : Nat → Nat
  | 0 => 0
  | fuel + 1 => if unitsInOne ≤ units then 0 else timesBelowOne (units * 10) fuel + 1

/-- The exponent of the leading decimal digit of a positive finite magnitude. -/
def leadingExponent (x : Magnitude) : Int :=
  if unitsInOne ≤ x.units then ((Nat.toDigits 10 (x.units / unitsInOne)).length : Int) - 1
  else -(timesBelowOne x.units 324 : Int)

/-- The decimal with the fewest digits that reads back as a positive finite magnitude: the coarsest
grid that holds one, seventeen digits at most. -/
def shortest (x : Magnitude) : Decimal :=
  let leading := x.leadingExponent
  let grids := (List.range 17).map fun (n : Nat) => leading - n
  (grids.findSome? x.onGrid?).getD ⟨0, 0⟩

end Magnitude

namespace Decimal

/-- Digits without the zeros at their end. -/
def trimZeros (digits : List Char) : List Char := (digits.reverse.dropWhile (· == '0')).reverse

/-- The significant digits `d₁d₂…dₖ` of a decimal and the number `n` such that its value is
`0.d₁d₂…dₖ * 10 ^ n`. -/
def significant (d : Decimal) : List Char × Int :=
  let digits := Nat.toDigits 10 d.digits
  (trimZeros digits, d.exponent + digits.length)

/-- The digits positionally when the point falls between six places before the first and twenty-one
places after it, and with an explicit sign on the exponent otherwise. -/
def toText (d : Decimal) : String :=
  let (digits, n) := d.significant
  let k : Int := digits.length
  if k ≤ n ∧ n ≤ 21 then
    String.ofList (digits ++ List.replicate (n - k).toNat '0')
  else if 0 < n ∧ n ≤ 21 then
    String.ofList (digits.take n.toNat ++ '.' :: digits.drop n.toNat)
  else if -6 < n ∧ n ≤ 0 then
    String.ofList ('0' :: '.' :: List.replicate (-n).toNat '0' ++ digits)
  else
    let exponent := (if n - 1 < 0 then '-' else '+') :: Nat.toDigits 10 (n - 1).natAbs
    String.ofList (digits.take 1 ++ (if k ≤ 1 then [] else '.' :: digits.drop 1) ++ 'e' :: exponent)

end Decimal

namespace Number

/-- The text of a number. Zero is written without its sign. -/
def toText : Number → String
  | .nan => "NaN"
  | .signed negative m =>
    if m.isZero then "0"
    else
      let text := if m.isInfinite then "Infinity" else m.shortest.toText
      if negative then "-" ++ text else text

end Number

end LatentExpr
