import LatentExpr.Text.Ranges

/-!
White space in three forms: the characters of the property `White_Space`, what a source may hold
between tokens, and what is stripped from the ends of a text before it is read as a number.
-/
namespace LatentExpr.Text

/-- The property `White_Space`. -/
def whiteSpace : Ranges := [
  (0x09, 0x0D), (0x20, 0x20), (0x85, 0x85), (0xA0, 0xA0), (0x1680, 0x1680), (0x2000, 0x200A),
  (0x2028, 0x2029), (0x202F, 0x202F), (0x205F, 0x205F), (0x3000, 0x3000)]

def isWhite (c : Char) : Bool := whiteSpace.contains c

/-- What a source may hold between tokens besides comments: control characters, the space and other
white space. -/
def isBlank (c : Char) : Bool :=
  c.toNat ≤ 0x20 || (0x7F ≤ c.toNat && c.toNat ≤ 0x9F) || isWhite c

/-- A text without the characters at both ends that satisfy `p`. -/
def stripEnds (p : Char → Bool) (text : List Char) : List Char :=
  ((text.dropWhile p).reverse.dropWhile p).reverse

def trim (text : List Char) : List Char := stripEnds isWhite text

end LatentExpr.Text
