import LatentExpr.Expr.Basic

/-!
The source form of an expression, with parentheses only where the grammar needs them: an operand is
put between parentheses when it binds looser than its place asks for.
-/
namespace LatentExpr

namespace Expr

/-- How tightly an expression binds. -/
def precedence : Expr → Nat
  | comma _ => 0
  | assign .. => 1
  | ternary .. => 2
  | logical .or .. => 3
  | logical .and .. => 4
  | binary .equality .. => 5
  | binary .relational .. => 6
  | binary .additive .. => 7
  | binary .multiplicative .. => 8
  | unary .. => 9
  | _ => 10

def isUnary : Expr → Bool
  | unary .. => true
  | _ => false

/-- Whether an expression is the identifier `name`. -/
def isNamed (name : String) : Expr → Bool
  | identifier other => other = name
  | _ => false

/-- The text of the expression `e` in a place that asks for a precedence of at least `least`. -/
def enclose (least : Nat) (e : Expr) (text : String) : String :=
  if e.precedence < least then "(" ++ text ++ ")" else text

end Expr

mutual

/-- The source form of an expression. -/
def Expr.print : Expr → String
  | .assign target value =>
    Expr.enclose 2 target target.print ++ " = " ++ Expr.enclose 1 value value.print
  | .comma [] => ""
  | .comma (first :: rest) => Expr.enclose 1 first first.print ++ printRest 2 rest
  | .ternary test consequent alternate =>
    Expr.enclose 3 test test.print ++ " ? " ++ consequent.print ++ " : " ++
      Expr.enclose 1 alternate alternate.print
  | .logical op left right =>
    let precedence := (Expr.logical op left right).precedence
    Expr.enclose precedence left left.print ++ " " ++ op.symbol ++ " " ++
      Expr.enclose (precedence + 1) right right.print
  | .binary level op left right =>
    let precedence := (Expr.binary level op left right).precedence
    Expr.enclose precedence left left.print ++ " " ++ op.symbol ++ " " ++
      Expr.enclose (precedence + 1) right right.print
  | .unary op operand =>
    op.symbol ++ (if operand.isUnary then " " else "") ++ Expr.enclose 9 operand operand.print
  | .identifier name => name
  | .constant _ text => text
  | .literal value => value.keyword
  | .receiver => "this"
  | .call callee args => Expr.enclose 10 callee callee.print ++ "(" ++ printItems args ++ ")"
  | .member object name => Expr.enclose 10 object object.print ++ "." ++ name
  | .index object key => Expr.enclose 10 object object.print ++ "[" ++ key.print ++ "]"
  | .array elements => "[" ++ printItems elements ++ "]"
  | .object [] => "\x7b\x7d"
  | .object (first :: rest) => "\x7b " ++ first.print ++ printProperties rest ++ " \x7d"

/-- Items of a list, separated by commas. -/
def printItems : List Expr → String
  | [] => ""
  | first :: rest => Expr.enclose 1 first first.print ++ printRest 1 rest

/-- Items that follow another one. -/
def printRest (least : Nat) : List Expr → String
  | [] => ""
  | item :: rest => ", " ++ Expr.enclose least item item.print ++ printRest least rest

/-- The source form of a property. A property whose value is the variable of the same name is written
as that name alone. -/
def Property.print : Property → String
  | .named name value =>
    if value.isNamed name then name else name ++ ": " ++ Expr.enclose 1 value value.print
  | .constant _ text value => text ++ ": " ++ Expr.enclose 1 value value.print
  | .computed key value => "[" ++ key.print ++ "]: " ++ Expr.enclose 1 value value.print

/-- Properties that follow another one. -/
def printProperties : List Property → String
  | [] => ""
  | p :: rest => ", " ++ p.print ++ printProperties rest

end

end LatentExpr
