import LatentExpr.Expr.Basic
import LatentExpr.Token.Lexeme
import LatentExpr.Value.Basic

/-!
The values of constants. A number is read in the radix that its first characters choose; a string
loses its quotes and has its escapes replaced.
-/
namespace LatentExpr

/-- The number that the text of a constant denotes, NaN if it denotes none. -/
def Number.ofConstant (text : List Char) : Number :=
  match text with
  | '0' :: 'x' :: digits | '0' :: 'X' :: digits => ofDigits 16 digits
  | '0' :: 'b' :: digits | '0' :: 'B' :: digits => ofDigits 2 digits
  | '0' :: first :: rest =>
    if (first :: rest).all Text.isOctalDigit then ofDigits 8 (first :: rest)
    else (read? text).getD .nan
  | _ => (read? text).getD .nan

namespace Constant

/-- The character that a backslash and a character stand for. -/
def escapeOf (c : Char) : Char :=
  if c = 'n' then '\n' else if c = 't' then '\t' else if c = 'r' then '\r' else c

/-- A text with its escapes replaced. A backslash at the end is dropped. -/
def unescape : List Char → List Char
  | [] => []
  | ['\\'] => []
  | '\\' :: c :: rest => escapeOf c :: unescape rest
  | c :: rest => c :: unescape rest

/-- The text without the byte at each end; empty if those bytes are not characters of their own. -/
def inner (text : List Char) : List Char :=
  match text with
  | [] => []
  | first :: rest =>
    match rest.getLast? with
    | none => []
    | some last => if first.utf8Size = 1 ∧ last.utf8Size = 1 then rest.dropLast else []

/-- The string that the text of a constant denotes. -/
def stringOf (text : List Char) : String := String.ofList (unescape (inner text))

/-- The value of a constant. -/
def value (kind : ConstantKind) (text : String) : Value :=
  match kind with
  | .number => .number (.ofConstant text.toList)
  | .string => .string (stringOf text.toList)

end Constant

/-- The value of a literal. -/
def Literal.value : Literal → Value
  | .true => .bool Bool.true
  | .false => .bool Bool.false
  | .null => .null
  | .undefined => .undefined

end LatentExpr
