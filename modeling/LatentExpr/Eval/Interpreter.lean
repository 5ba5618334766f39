import LatentExpr.Eval.Process
import LatentExpr.Expr.Printer
import LatentExpr.Value.Constant

/-!
The meaning of expressions. An expression becomes a process that goes on with its value: everything
happens from left to right, except that the operands of a binary operator are joined, the value of an
assignment comes before its target, and the value of a property before its computed key. Values are
waited for wherever they are read, so what goes on is not pending, results of configured operators
apart.
-/
namespace LatentExpr

/-- What the names of an expression and `this` refer to. -/
structure Scope where
  receiver : Value
  environment : Value

/-- Read a property and wait for it. -/
def Process.readSettled (target : Value) (key : String) (next : Value → Process) : Process :=
  .read target key fun v => .settle v next

/-- Call a value and wait for what it returns. `callee` is what was called. -/
def Process.callSettled (callee : Expr) (f receiver : Value) (args : List Value)
    (next : Value → Process) : Process :=
  match f with
  | .function f => .call f receiver args fun v => .settle v next
  | other => .fail (.notCallable callee.print other.kind)

mutual

/-- The process of an expression, which goes on with its value. -/
def Expr.eval (s : Scope) : Expr → (Value → Process) → Process
  | .identifier name, next => .readSettled s.environment name next
  | .receiver, next => .settle s.receiver next
  | .constant kind text, next => next (Constant.value kind text)
  | .literal l, next => next l.value
  | .array elements, next => evalAll s elements fun vs => .newArray vs next
  | .object properties, next =>
    evalProperties s properties fun entries => .newObject (.ofEntries entries) next
  | .member object name, next => object.eval s fun target => .readSettled target name next
  | .index object key, next =>
    object.eval s fun target =>
      key.eval s fun k => .keyOf k fun key => .readSettled target key next
  | .call callee@(.member object name) args, next =>
    object.eval s fun target =>
      .readSettled target name fun f =>
        evalAll s args fun vs => .callSettled callee f target vs next
  | .call callee@(.index object key) args, next =>
    object.eval s fun target =>
      key.eval s fun k => .keyOf k fun key => .readSettled target key fun f =>
        evalAll s args fun vs => .callSettled callee f target vs next
  | .call callee args, next =>
    callee.eval s fun f => .settle s.receiver fun receiver =>
      evalAll s args fun vs => .callSettled callee f receiver vs next
  | .assign target value, next => value.eval s fun v => target.store s v next
  | .comma items, next => evalLast s .undefined items next
  | .ternary test consequent alternate, next =>
    test.eval s fun v => if v.truthy then consequent.eval s next else alternate.eval s next
  | .logical .and left right, next =>
    left.eval s fun v => if v.truthy then right.eval s next else next v
  | .logical .or left right, next =>
    left.eval s fun v => if v.truthy then next v else right.eval s next
  | .binary _ op left right, next =>
    .join (left.eval s .done) (right.eval s .done) fun a b => .binary op a b next
  | .unary op operand, next => operand.eval s fun v => .unary op v next
termination_by structural e => e

/-- Store a value in a name or member, after waiting for it, and go on with it. -/
def Expr.store (s : Scope) : Expr → Value → (Value → Process) → Process
  | .identifier name, value, next =>
    .settle value fun v => .write s.environment name v (next v)
  | .member object name, value, next =>
    .settle value fun v => object.eval s fun target => .write target name v (next v)
  | .index object key, value, next =>
    .settle value fun v => object.eval s fun target =>
      key.eval s fun k => .keyOf k fun key => .write target key v (next v)
  | target, value, _ => .settle value fun _ => .fail (.invalidAssignmentTarget target.print)
termination_by structural e => e

/-- The values of expressions, one after the other. -/
def evalAll (s : Scope) : List Expr → (List Value → Process) → Process
  | [], next => next []
  | e :: rest, next => e.eval s fun v => evalAll s rest fun vs => next (v :: vs)
termination_by structural es => es

/-- The last value of expressions, `last` if there are none. -/
def evalLast (s : Scope) (last : Value) : List Expr → (Value → Process) → Process
  | [], next => next last
  | e :: rest, next => e.eval s fun v => evalLast s v rest next
termination_by structural es => es

/-- The entry of a property: its value, then its key. -/
def Property.eval (s : Scope) : Property → (String × Value → Process) → Process
  | .named name value, next => value.eval s fun v => next (name, v)
  | .constant kind text value, next =>
    value.eval s fun v => .keyOf (Constant.value kind text) fun key => next (key, v)
  | .computed key value, next =>
    value.eval s fun v => key.eval s fun k => .keyOf k fun key => next (key, v)
termination_by structural p => p

/-- The entries of properties, one after the other. -/
def evalProperties (s : Scope) : List Property → (List (String × Value) → Process) → Process
  | [], next => next []
  | p :: rest, next => p.eval s fun entry => evalProperties s rest fun es => next (entry :: es)
termination_by structural ps => ps

end

/-- Evaluate an expression as far as the world allows. If it waits, what is left of it stands for its value
and can be awaited later. -/
def Expr.invoke {σ : Type} (s : Setting σ) (scope : Scope) (e : Expr) (w : World σ) :
    Progress × World σ :=
  (e.eval scope .done).poll s w

end LatentExpr
