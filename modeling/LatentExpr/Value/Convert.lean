import LatentExpr.Text.Blank
import LatentExpr.Value.Heap

/-!
Conversions of values to texts, numbers, primitives and property keys. The text of an array joins the
texts of its elements; an array met again inside itself is empty, so the walk keeps the arrays it is
inside of and never goes deeper than there are arrays.
-/
namespace LatentExpr

/-! ### Numbers from text -/

/-- White space and the byte order mark, which may stand around a number. -/
def isNumberPadding (c : Char) : Bool := Text.isWhite c || c == '\ufeff'

/-- Characters that decimal text is made of. -/
def isDecimalChar (c : Char) : Bool :=
  c.isDigit || c == '.' || c == 'e' || c == 'E' || c == '+' || c == '-'

/-- The number that a text without padding denotes: digits behind a radix, infinity by its name, or
decimal text, each decimal with an optional sign. -/
def Number.ofTrimmed (text : List Char) : Number :=
  match text with
  | [] => zero
  | '0' :: 'x' :: digits | '0' :: 'X' :: digits => ofDigits 16 digits
  | '0' :: 'o' :: digits | '0' :: 'O' :: digits => ofDigits 8 digits
  | '0' :: 'b' :: digits | '0' :: 'B' :: digits => ofDigits 2 digits
  | first :: rest =>
    let unsigned := if first = '+' ∨ first = '-' then rest else text
    if unsigned = "Infinity".toList then .signed (first = '-') .infinite
    else if unsigned.all isDecimalChar then (read? text).getD .nan
    else .nan

/-- The number that a text denotes, NaN if it denotes none. -/
def Number.ofText (text : String) : Number :=
  ofTrimmed (Text.stripEnds isNumberPadding text.toList)

/-! ### Texts -/

namespace Value

/-- The text of a value that is no array. -/
def plainText : Value → String
  | undefined => "undefined"
  | null => "null"
  | bool b => if b then "true" else "false"
  | number n => n.toText
  | string s => s
  | array _ => ""
  | object _ => "[object Object]"
  | function _ => "function () \x7b [native code] \x7d"
  | pending _ => "[object Promise]"

end Value

namespace Heap

/-- The text of an array inside the arrays of `track`. Elements that are `undefined` or `null` are
empty, as is an array of the track. `fuel` bounds the depth. -/
def arrayText (h : Heap) : Nat → List Nat → Nat → String
  | 0, _, _ => ""
  | fuel + 1, track, id =>
    if track.contains id then ""
    else
      String.intercalate "," ((h.elements id).toList.map fun
        | .undefined | .null => ""
        | .array inner => h.arrayText fuel (id :: track) inner
        | v => v.plainText)

/-- The text of a value. -/
def text (h : Heap) : Value → String
  | .array id => h.arrayText (h.arrays.size + 1) [] id
  | v => v.plainText

/-- The number that a value converts to. -/
def toNumber (h : Heap) : Value → Number
  | .undefined => .nan
  | .null => .zero
  | .bool b => .ofNat b.toNat
  | .number n => n
  | .string s => .ofText s
  | .array id => .ofText (h.text (.array id))
  | .object _ | .function _ | .pending _ => .nan

/-- A value as an operand that is no container: containers, functions and pending values become their
text. -/
def toPrimitive (h : Heap) : Value → Value
  | .array id => .string (h.text (.array id))
  | .object id => .string (Value.object id).plainText
  | .function f => .string (Value.function f).plainText
  | .pending id => .string (Value.pending id).plainText
  | v => v

/-- The key that a value names a property by. -/
def propertyKey (h : Heap) (v : Value) : String := h.text v

end Heap

end LatentExpr
