import LatentExpr.Token.Basic

/-!
Why a source is no expression, and where.
-/
namespace LatentExpr

inductive ParseFault where
  /-- Something other than `expected` came next. -/
  | unexpectedToken (expected found : String)
  /-- The left side of an assignment is neither a name nor a member. -/
  | invalidAssignmentTarget (target : String)
  /-- The key of a property is a symbol. -/
  | invalidObjectKey (key : String)
  /-- A complete expression was followed by more, of which this is the beginning. -/
  | trailingInput (excerpt : String)
  /-- A token could not be read. -/
  | lexical (fault : LexicalFault)
  /-- The nesting exceeded the budget. The budget of a source is larger than its nesting can be. -/
  | tooDeep
deriving DecidableEq

/-- The text of a token in a message. The empty text is the end. -/
def showFound (found : String) : String := if found = "" then "end of input" else found

namespace ParseFault

def message : ParseFault → String
  | unexpectedToken expected found => "Expected " ++ expected ++ " but was " ++ showFound found
  | invalidAssignmentTarget target => "Trying to assign to a non l-value: '" ++ target ++ "'"
  | invalidObjectKey key => "Invalid key: '" ++ key ++ "'"
  | trailingInput excerpt => "Unexpected input: `" ++ excerpt ++ "`"
  | lexical fault => fault.message
  | tooDeep => "Expression nested too deeply"

/-- The offending text; empty at the end of the source. -/
def found : ParseFault → String
  | unexpectedToken _ found => found
  | invalidAssignmentTarget target => target
  | invalidObjectKey key => key
  | trailingInput excerpt => excerpt
  | lexical fault => fault.found
  | tooDeep => ""

end ParseFault

/-- A fault with the offending range. -/
structure ParseError where
  fault : ParseFault
  span : Span
  location : Location
deriving DecidableEq

namespace ParseError

def message (e : ParseError) : String := e.location.annotate e.fault.message

def found (e : ParseError) : String := showFound e.fault.found

def ofLexical (e : LexicalError) : ParseError := ⟨.lexical e.fault, e.span, e.location⟩

end ParseError

end LatentExpr
