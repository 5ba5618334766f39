import LatentExpr.Number.Basic
import LatentExpr.Number.Digits

/-!
Reading numbers: decimal text with optional sign, fraction and exponent, and runs of digits in a
small radix. Decimal text is read exactly and rounded once, but of an exponent no more digits are read
than it takes to reach `exponentBound`; digits in a radix are accumulated digit by digit, each step
rounded.
-/
namespace LatentExpr

/-- The number `digits * 10 ^ exponent`. -/
structure Decimal where
  digits : Nat
  exponent : Int
deriving DecidableEq

namespace Decimal

/-- The magnitude nearest to a decimal. Powers of ten far outside the range of magnitudes are decided
without computing them. -/
def toMagnitude (d : Decimal) : Magnitude :=
  if d.digits = 0 then .zero
  else if 400 < d.exponent then .infinite
  else if d.exponent + d.digits.log2 < -400 then .zero
  else match d.exponent with
    | .ofNat e => .round (d.digits * Nat.pow 10 e * Magnitude.unitsInOne) 1
    | .negSucc e => .round (d.digits * Magnitude.unitsInOne) (Nat.pow 10 (e + 1))

/-- The value of a decimal digit. -/
def digitValue (c : Char) : Nat := c.toNat - '0'.toNat

/-- The value of a run of decimal digits, the first one the most significant. -/
def naturalOf (digits : List Char) : Nat :=
  Digits.join 10 (digits.length.log2 + 1) (digits.reverse.map digitValue)

theorem naturalOf_eq_foldl (digits : List Char) :
    naturalOf digits = digits.foldl (fun n c => n * 10 + digitValue c) 0 := by
  rw [naturalOf, Digits.join_eq_value, List.map_reverse, Digits.value_reverse, List.foldl_map]
  simp only [Nat.mul_comm, Nat.add_comm]

/-- An exponent that has reached this bound takes no more digits. A number of fewer than 65000 digits is
zero or infinite with or without them. -/
def exponentBound : Nat := 65536

/-- The size of an exponent: the value of its digits up to the one that reaches the bound. -/
def exponentOf (digits : List Char) : Nat :=
  digits.foldl (fun n c => if n < exponentBound then n * 10 + digitValue c else n) 0

/-- Digits are left out only where their value is ten times the bound or more. -/
theorem exponentOf_eq_naturalOf {digits : List Char}
    (h : naturalOf digits < exponentBound * 10) : exponentOf digits = naturalOf digits := by
  rw [naturalOf_eq_foldl] at *
  unfold exponentOf
  generalize 0 = n at *
  induction digits generalizing n with
  | nil => rfl
  | cons c rest ih =>
    have grows : ∀ (text : List Char) (m : Nat),
        m ≤ text.foldl (fun n c => n * 10 + digitValue c) m := by
      intro text
      induction text with
      | nil => exact fun m => Nat.le_refl m
      | cons d text ih => exact fun m => Nat.le_trans (by omega) (ih (m * 10 + digitValue d))
    rw [List.foldl_cons] at *
    have := grows rest (n * 10 + digitValue c)
    rw [if_pos (by omega)]
    exact ih _ h

/-- What follows the marker of an exponent: an optional sign and at least one digit. -/
def readExponent? (text : List Char) : Option Int :=
  match text with
  | '+' :: digits => magnitude digits
  | '-' :: digits => (magnitude digits).map (- ·)
  | digits => magnitude digits
where
  magnitude (digits : List Char) : Option Int :=
    if digits.isEmpty || !digits.all Char.isDigit then none else some (exponentOf digits)

/-- Text without a sign: digits with an optional point among or around them, at least one digit, and
an optional exponent. -/
def read? (text : List Char) : Option Decimal :=
  let whole := text.takeWhile Char.isDigit
  let afterWhole := text.dropWhile Char.isDigit
  let (fraction, afterFraction) := match afterWhole with
    | '.' :: rest => (rest.takeWhile Char.isDigit, rest.dropWhile Char.isDigit)
    | rest => ([], rest)
  if whole.isEmpty && fraction.isEmpty then none
  else
    let digits := naturalOf (whole ++ fraction)
    match afterFraction with
    | [] => some ⟨digits, -fraction.length⟩
    | c :: rest =>
      if c = 'e' ∨ c = 'E' then (readExponent? rest).map fun e => ⟨digits, e - fraction.length⟩
      else none

end Decimal

namespace Number

/-- Text without a sign: a decimal, or the name of infinity or NaN in letters of either case. -/
def readUnsigned? (text : List Char) : Option (Option Magnitude) :=
  let word := String.ofList (text.map Char.toLower)
  if word = "inf" ∨ word = "infinity" then some (some .infinite)
  else if word = "nan" then some none
  else (Decimal.read? text).map fun d => some d.toMagnitude

/-- The number that a text denotes: an optional sign, then a decimal, infinity or NaN. -/
def read? (text : List Char) : Option Number :=
  match text with
  | '-' :: rest => (readUnsigned? rest).map (ofMagnitude true)
  | '+' :: rest => (readUnsigned? rest).map (ofMagnitude false)
  | rest => (readUnsigned? rest).map (ofMagnitude false)
where
  ofMagnitude (negative : Bool) : Option Magnitude → Number
    | none => .nan
    | some m => .signed negative m

/-- The value of a digit in radixes up to sixteen, in letters of either case. -/
def digitIn? (radix : Nat) (c : Char) : Option Nat :=
  let value :=
    if c.isDigit then some (c.toNat - '0'.toNat)
    else if 'a' ≤ c ∧ c ≤ 'f' then some (c.toNat - 'a'.toNat + 10)
    else if 'A' ≤ c ∧ c ≤ 'F' then some (c.toNat - 'A'.toNat + 10)
    else none
  value.filter (· < radix)

/-- The value of digits in a radix, NaN if there are none or one is out of range. -/
def ofDigits (radix : Nat) (digits : List Char) : Number :=
  if digits.isEmpty then .nan
  else
    let step (value : Option Number) (c : Char) : Option Number := do
      let v ← value
      let d ← digitIn? radix c
      return add (mul v (ofNat radix)) (ofNat d)
    (digits.foldl step (some zero)).getD .nan

end Number

end LatentExpr
