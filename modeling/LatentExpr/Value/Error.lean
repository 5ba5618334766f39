import LatentExpr.Value.Basic

/-!
Why an evaluation fails.
-/
namespace LatentExpr

inductive EvalError where
  /-- What was called is no function. `callee` is its source form. -/
  | notCallable (callee : String) (kind : Kind)
  /-- A property was read from `undefined` or `null`. -/
  | cannotRead (key : String) (kind : Kind)
  /-- A property was written to something that cannot hold it. -/
  | cannotSet (key : String) (kind : Kind)
  /-- An array was to grow too long, or to a length that is none. -/
  | invalidArrayLength (length : String)
  /-- A value was to be stored in something that is neither a name nor a member. -/
  | invalidAssignmentTarget (target : String)
  /-- A configured operator has no meaning. -/
  | unsupportedOperator (symbol : String)
  /-- Raised by the host. -/
  | host (message : String)
deriving DecidableEq

def EvalError.message : EvalError → String
  | notCallable callee kind => callee ++ " is not a function (found " ++ kind.name ++ ")"
  | cannotRead key kind => "Cannot read properties of " ++ kind.name ++ " (reading '" ++ key ++ "')"
  | cannotSet key kind => "Cannot set properties of " ++ kind.name ++ " (setting '" ++ key ++ "')"
  | invalidArrayLength length => "Invalid array length: " ++ length
  | invalidAssignmentTarget target => "Trying to assign to a non l-value: '" ++ target ++ "'"
  | unsupportedOperator symbol => "Unsupported operator: " ++ symbol
  | host message => message

/-- How an evaluation ends. -/
abbrev Outcome := Except EvalError Value

end LatentExpr
