/-!
Classes of ASCII characters that steer the reading of tokens, and the same classes of bytes. A byte
outside ASCII belongs to no class.
-/
namespace LatentExpr.Text

/-- A class of bytes that tokens are made of. -/
inductive ByteClass where
  | digit
  | octal
  | hex
  | identStart
  | identContinue
  | quote
  | space
deriving DecidableEq

def isOctalDigit (c : Char) : Bool := '0' ≤ c && c ≤ '7'

def isBinaryDigit (c : Char) : Bool := c == '0' || c == '1'

def isHexDigit (c : Char) : Bool := c.isDigit || ('a' ≤ c && c ≤ 'f') || ('A' ≤ c && c ≤ 'F')

/-- The first character of an identifier. -/
def isIdentStart (c : Char) : Bool := c.isAlpha || c == '_' || c == '$'

/-- Any later character of an identifier. -/
def isIdentContinue (c : Char) : Bool := isIdentStart c || c.isDigit

def isQuote (c : Char) : Bool := c == '\'' || c == '"'

/-- Control characters and the space. -/
def isAsciiSpace (c : Char) : Bool := c.toNat ≤ 0x20 || c.toNat == 0x7F

namespace ByteClass

/-- Every class, in the order of the bits of `mask`. -/
def all : List ByteClass := [digit, octal, hex, identStart, identContinue, quote, space]

/-- Whether a character belongs to a class. -/
def holds : ByteClass → Char → Bool
  | digit => Char.isDigit
  | octal => isOctalDigit
  | hex => isHexDigit
  | identStart => isIdentStart
  | identContinue => isIdentContinue
  | quote => isQuote
  | space => isAsciiSpace

def bit : ByteClass → Nat
  | digit => 1
  | octal => 2
  | hex => 4
  | identStart => 8
  | identContinue => 16
  | quote => 32
  | space => 64

/-- The bits of all classes that a byte belongs to. -/
def mask (byte : UInt8) : Nat :=
  (all.filter fun k => k.holds (Char.ofUInt8 byte)).foldr (fun k total => k.bit + total) 0

/-- The letters of the classes and of the binary digits that a byte belongs to. -/
def letters (byte : UInt8) : String :=
  let c := Char.ofUInt8 byte
  let table : List (Char × Bool) := [('d', c.isDigit), ('o', isOctalDigit c), ('x', isHexDigit c),
    ('b', isBinaryDigit c), ('s', isIdentStart c), ('c', isIdentContinue c), ('q', isQuote c),
    ('w', isAsciiSpace c)]
  String.ofList ((table.filter Prod.snd).map Prod.fst)

end ByteClass

end LatentExpr.Text
