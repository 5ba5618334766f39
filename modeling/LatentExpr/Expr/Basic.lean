import LatentExpr.Expr.Operator

/-!
Expressions as trees, one constructor for each form that the grammar has.
-/
namespace LatentExpr

/-- The words that stand for a value of their own. -/
inductive Literal where
  | true
  | false
  | null
  | undefined
deriving DecidableEq

namespace Literal

def keyword : Literal → String
  | true => "true"
  | false => "false"
  | null => "null"
  | undefined => "undefined"

def ofKeyword? (word : String) : Option Literal :=
  [true, false, null, undefined].find? fun l => l.keyword = word

end Literal

/-- A word that is no name: a literal, or the receiver. -/
def isKeyword (word : String) : Bool := word = "this" || (Literal.ofKeyword? word).isSome

/-- How the text of a constant is read. -/
inductive ConstantKind where
  | number
  | string
deriving DecidableEq

mutual

/-- An expression. Constants keep their source text, and names their text. -/
inductive Expr where
  | assign (target value : Expr)
  /-- All items are evaluated, and the last one is the value. -/
  | comma (items : List Expr)
  | ternary (test consequent alternate : Expr)
  | logical (op : LogicalOp) (left right : Expr)
  | binary (level : BinaryLevel) (op : BinaryOp) (left right : Expr)
  | unary (op : UnaryOp) (operand : Expr)
  | identifier (name : String)
  | constant (kind : ConstantKind) (text : String)
  | literal (value : Literal)
  | receiver
  | call (callee : Expr) (args : List Expr)
  /-- A member by its name. -/
  | member (object : Expr) (name : String)
  /-- A member by a computed key. -/
  | index (object key : Expr)
  | array (elements : List Expr)
  | object (properties : List Property)

/-- A property of an object literal, with the three forms of its key. -/
inductive Property where
  | named (name : String) (value : Expr)
  | constant (kind : ConstantKind) (text : String) (value : Expr)
  | computed (key value : Expr)

end

namespace Expr

/-- Whether an expression can stand on the left of an assignment. -/
def isWritable : Expr → Bool
  | identifier _ | member .. | index .. => true
  | _ => false

instance : Inhabited Expr := ⟨receiver⟩

end Expr

/-! ### Equality -/

mutual

/-- Whether two expressions are the same tree. -/
def Expr.same : Expr → Expr → Bool
  | .assign t v, .assign t' v' => t.same t' && v.same v'
  | .comma is, .comma is' => sameExprs is is'
  | .ternary t a b, .ternary t' a' b' => t.same t' && a.same a' && b.same b'
  | .logical op l r, .logical op' l' r' => op = op' && l.same l' && r.same r'
  | .binary lv op l r, .binary lv' op' l' r' => lv = lv' && op = op' && l.same l' && r.same r'
  | .unary op e, .unary op' e' => op = op' && e.same e'
  | .identifier n, .identifier n' => n = n'
  | .constant k s, .constant k' s' => k = k' && s = s'
  | .literal l, .literal l' => l = l'
  | .receiver, .receiver => true
  | .call c as, .call c' as' => c.same c' && sameExprs as as'
  | .member o n, .member o' n' => o.same o' && n = n'
  | .index o k, .index o' k' => o.same o' && k.same k'
  | .array es, .array es' => sameExprs es es'
  | .object ps, .object ps' => sameProperties ps ps'
  | _, _ => false
termination_by structural e => e

def sameExprs : List Expr → List Expr → Bool
  | [], [] => true
  | e :: es, e' :: es' => e.same e' && sameExprs es es'
  | _, _ => false
termination_by structural es => es

def Property.same : Property → Property → Bool
  | .named n v, .named n' v' => n = n' && v.same v'
  | .constant k s v, .constant k' s' v' => k = k' && s = s' && v.same v'
  | .computed k v, .computed k' v' => k.same k' && v.same v'
  | _, _ => false
termination_by structural p => p

def sameProperties : List Property → List Property → Bool
  | [], [] => true
  | p :: ps, p' :: ps' => p.same p' && sameProperties ps ps'
  | _, _ => false
termination_by structural ps => ps

end

end LatentExpr
