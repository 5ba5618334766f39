/-!
Texts as sequences of UTF-16 units: their length, their order, and the position of one text in
another. A character beyond the first 65536 code points counts as two units, a pair of surrogates.
-/
namespace LatentExpr.Text

/-- The UTF-16 units of a character. -/
def charUnits (c : Char) : List Nat :=
  let n := c.toNat
  if n < 0x10000 then [n] else [0xD800 + (n - 0x10000) / 0x400, 0xDC00 + (n - 0x10000) % 0x400]

/-- The UTF-16 units of a text. -/
def units (text : List Char) : List Nat := text.flatMap charUnits

/-- The character that a unit shows on its own; half of a pair shows the replacement character. -/
def unitChar (unit : Nat) : Char :=
  if 0xD800 ≤ unit ∧ unit ≤ 0xDFFF then '\ufffd' else Char.ofNat unit

/-- The order of two sequences of units: by the first that differs, a proper beginning first. -/
def compareUnits : List Nat → List Nat → Ordering
  | [], [] => .eq
  | [], _ :: _ => .lt
  | _ :: _, [] => .gt
  | a :: as, b :: bs => if a < b then .lt else if b < a then .gt else compareUnits as bs

/-- The number of units before the first occurrence of `needle`. -/
def unitsBefore? (needle : List Char) : List Char → Option Nat
  | [] => if needle.isEmpty then some 0 else none
  | c :: rest =>
    if needle.isPrefixOf (c :: rest) then some 0
    else (unitsBefore? needle rest).map (· + (charUnits c).length)

end LatentExpr.Text
