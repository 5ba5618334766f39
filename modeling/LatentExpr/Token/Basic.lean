import LatentExpr.Source.Location
import LatentExpr.Source.Span
import LatentExpr.Text.Quoted
import LatentExpr.Token.Name

/-!
Tokens and the faults that keep a text from being one.
-/
namespace LatentExpr

inductive TokenKind where
  | number
  | string
  | identifier
  | symbol
deriving DecidableEq

def TokenKind.name : TokenKind → String
  | number => "number"
  | string => "string"
  | identifier => "identifier"
  | symbol => "symbol"

/-- A token. Identifiers and symbols carry an interned name. -/
structure Token where
  kind : TokenKind
  text : String
  span : Span
  name : Option Name
deriving DecidableEq

/-- Why no token could be read. -/
inductive LexicalFault where
  /-- A line feed that is not escaped, or the end, came before the closing quote. -/
  | unterminatedString
  /-- The end came before the closing `*/`. -/
  | unterminatedComment
  /-- No token starts with this character. -/
  | unexpectedCharacter (c : Char)
deriving DecidableEq

namespace LexicalFault

def message : LexicalFault → String
  | unterminatedString => "String literal not closed"
  | unterminatedComment => "Comment not closed"
  | unexpectedCharacter c => "Unexpected character: " ++ Text.quotedChar c

/-- The offending text. -/
def found : LexicalFault → String
  | unterminatedString | unterminatedComment => ""
  | unexpectedCharacter c => c.toString

end LexicalFault

/-- The text of a message with the place it is about. -/
def Location.annotate (l : Location) (message : String) : String :=
  message ++ ", at " ++ l.toText ++ "."

/-- A lexical fault with the offending range. -/
structure LexicalError where
  fault : LexicalFault
  span : Span
  location : Location
deriving DecidableEq

def LexicalError.message (e : LexicalError) : String := e.location.annotate e.fault.message

end LatentExpr
