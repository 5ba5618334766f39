import LatentExpr.Text.CharClass

/-!
The shapes of numbers, identifiers and strings: each function splits a text into the lexeme at its
start and the rest, so that the two together are the text.
-/
namespace LatentExpr.Lexeme

open Text

/-- The longest run of characters of a class at the start of a text. -/
def run (p : Char → Bool) (text : List Char) : List Char × List Char :=
  (text.takeWhile p, text.dropWhile p)

theorem run_append (p : Char → Bool) (text : List Char) : (run p text).1 ++ (run p text).2 = text :=
  List.takeWhile_append_dropWhile

/-- A point and the digits behind it, if a point comes first. -/
def fraction : List Char → List Char × List Char
  | '.' :: rest =>
    let (digits, rest) := run Char.isDigit rest
    ('.' :: digits, rest)
  | text => ([], text)

theorem fraction_append (text : List Char) : (fraction text).1 ++ (fraction text).2 = text := by
  unfold fraction
  split
  · exact congrArg ('.' :: ·) (run_append _ _)
  · rfl

/-- A sign, if one comes first. -/
def sign : List Char → List Char × List Char
  | [] => ([], [])
  | c :: rest => if c = '+' ∨ c = '-' then ([c], rest) else ([], c :: rest)

theorem sign_append (text : List Char) : (sign text).1 ++ (sign text).2 = text := by
  unfold sign
  split
  · rfl
  · split <;> rfl

/-- The marker of an exponent with its sign and digits, if the marker comes first. -/
def exponent : List Char → List Char × List Char
  | [] => ([], [])
  | c :: rest =>
    if c = 'e' ∨ c = 'E' then
      let (sign, rest) := sign rest
      let (digits, rest) := run Char.isDigit rest
      (c :: sign ++ digits, rest)
    else ([], c :: rest)

theorem exponent_append (text : List Char) : (exponent text).1 ++ (exponent text).2 = text := by
  unfold exponent
  split
  · rfl
  · split
    · simp only [List.cons_append, List.append_assoc, run_append, sign_append]
    · rfl

/-- A decimal number: digits, a fraction and an exponent, each of which may be missing. -/
def decimal (text : List Char) : List Char × List Char :=
  let (whole, rest) := run Char.isDigit text
  let (fraction, rest) := fraction rest
  let (exponent, rest) := exponent rest
  (whole ++ fraction ++ exponent, rest)

theorem decimal_append (text : List Char) : (decimal text).1 ++ (decimal text).2 = text := by
  simp only [decimal, List.append_assoc, exponent_append, fraction_append, run_append]

/-- A number that starts with zero: hexadecimal behind `0x`, binary behind `0b`, octal behind a zero
that an octal digit follows, decimal otherwise. -/
def fromZero (text : List Char) : List Char × List Char :=
  match text with
  | zero :: c :: rest =>
    if c = 'x' ∨ c = 'X' then
      let (digits, rest) := run isHexDigit rest
      (zero :: c :: digits, rest)
    else if c = 'b' ∨ c = 'B' then
      let (digits, rest) := run isBinaryDigit rest
      (zero :: c :: digits, rest)
    else if isOctalDigit c then
      let (digits, rest) := run isOctalDigit (c :: rest)
      (zero :: digits, rest)
    else decimal text
  | _ => decimal text

theorem fromZero_append (text : List Char) : (fromZero text).1 ++ (fromZero text).2 = text := by
  unfold fromZero
  split
  · split
    · simp only [List.cons_append, run_append]
    · split
      · simp only [List.cons_append, run_append]
      · split
        · simp only [List.cons_append, run_append]
        · exact decimal_append _
  · exact decimal_append _

/-- An identifier, its first character included. -/
def identifier : List Char → List Char × List Char
  | [] => ([], [])
  | c :: rest =>
    let (more, rest) := run isIdentContinue rest
    (c :: more, rest)

theorem identifier_append (text : List Char) :
    (identifier text).1 ++ (identifier text).2 = text := by
  cases text with
  | nil => rfl
  | cons c rest => exact congrArg (c :: ·) (run_append _ _)

/-- How a string ends. -/
inductive StringEnd where
  | closed
  | unterminated
deriving DecidableEq

/-- The characters of a string behind its opening quote, with the closing one if there is one. A
backslash keeps the next character from ending the string, a line feed included. -/
def stringTail (quote : Char) : List Char → List Char × List Char × StringEnd
  | [] => ([], [], .unterminated)
  | ['\\'] => (['\\'], [], .unterminated)
  | '\\' :: c :: rest =>
    let (tail, rest, ending) := stringTail quote rest
    ('\\' :: c :: tail, rest, ending)
  | c :: rest =>
    if c = quote then ([c], rest, .closed)
    else if c = '\n' then ([], c :: rest, .unterminated)
    else
      let (tail, rest, ending) := stringTail quote rest
      (c :: tail, rest, ending)

theorem stringTail_append (quote : Char) (text : List Char) :
    (stringTail quote text).1 ++ (stringTail quote text).2.1 = text := by
  fun_induction stringTail quote text <;> simp_all

end LatentExpr.Lexeme
