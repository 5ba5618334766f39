import LatentExpr.Text.Extending
import LatentExpr.Text.Unprintable

/-!
Quoted text for messages: a character or a string between quotes, with everything escaped that could
not be seen or would end the quotes.
-/
namespace LatentExpr.Text

/-- The text of an escape by code point: `\u`, then the hexadecimal code point in braces. -/
def codePointEscape (c : Char) : List Char :=
  ['\\', 'u', '\x7b'] ++ Nat.toDigits 16 c.toNat ++ ['\x7d']

/-- A character as it stands between quotes of the kind `quote`. -/
def escaped (quote c : Char) : List Char :=
  if c = '\t' then ['\\', 't']
  else if c = '\r' then ['\\', 'r']
  else if c = '\n' then ['\\', 'n']
  else if c = '\x00' then ['\\', '0']
  else if c = '\\' ∨ c = quote then ['\\', c]
  else if 0x20 ≤ c.toNat ∧ c.toNat < 0x7F then [c]
  else if extending.contains c || unprintable.contains c then codePointEscape c
  else [c]

/-- A character between single quotes. -/
def quotedChar (c : Char) : String := String.ofList (['\''] ++ escaped '\'' c ++ ['\''])

/-- A text between double quotes. -/
def quoted (text : String) : String :=
  String.ofList (['"'] ++ text.toList.flatMap (escaped '"') ++ ['"'])

end LatentExpr.Text
