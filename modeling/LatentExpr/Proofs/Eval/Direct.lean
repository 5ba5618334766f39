import LatentExpr.Proofs.Eval.Recorded

/-!
The plain evaluator, for expressions that never have to wait. It is a recursion over the expression that
does one thing after another and stops at the first failure: the left operand comes before the right one;
the value of an assignment before the object, the key and the write; the value of a property before its
computed key; the callee and the receiver before the arguments, and whether the callee can be called is asked
behind them; and only that part of a choice is evaluated which is chosen.
-/
namespace LatentExpr

/-- What ends at once, with a result or a failure, and records what it does. -/
abbrev Direct (σ α : Type) := ExceptT EvalError (StateM (Recorded σ)) α

namespace Direct
variable {σ α β : Type}

def read (target : Value) (key : String) : Direct σ Value := fun r =>
  (r.world.heap.getProperty target key, r)

def write (target : Value) (key : String) (value : Value) : Direct σ Unit := fun r =>
  match r.world.heap.setProperty target key value with
  | .ok heap => (.ok (), ⟨{ r.world with heap }, r.events ++ [.wrote target key value]⟩)
  | .error e => (.error e, r)

def keyOf (v : Value) : Direct σ String := fun r => (.ok (r.world.heap.propertyKey v), r)

def newArray (elements : List Value) : Direct σ Value := fun r =>
  let (v, heap) := r.world.heap.newArray elements.toArray
  (.ok v, ⟨{ r.world with heap }, r.events⟩)

def newObject (fields : Fields) : Direct σ Value := fun r =>
  let (v, heap) := r.world.heap.newObject fields
  (.ok v, ⟨{ r.world with heap }, r.events⟩)

/-- Call a value. `callee` is what was called. -/
def call (s : Setting σ) (callee : Expr) (f receiver : Value) (args : List Value) : Direct σ Value :=
  match f with
  | .function f => fun r =>
    let (outcome, world) := r.world.call s.host f receiver args
    (outcome, ⟨world, r.events ++ [.called f receiver args]⟩)
  | other => throw (.notCallable callee.print other.kind)

def binary (s : Setting σ) (op : BinaryOp) (a b : Value) : Direct σ Value := fun r =>
  let (outcome, world) := s.operators.applyBinary op a b r.world
  (outcome, ⟨world, r.events⟩)

def unary (s : Setting σ) (op : UnaryOp) (v : Value) : Direct σ Value := fun r =>
  let (outcome, world) := s.operators.applyUnary op v r.world
  (outcome, ⟨world, r.events⟩)

theorem bind_apply (x : Direct σ α) (f : α → Direct σ β) (r : Recorded σ) :
    (x >>= f) r =
      match x r with
      | (.ok a, r') => f a r'
      | (.error e, r') => (.error e, r') := by
  show (match x r with | (a, s) => (ExceptT.bindCont f a : StateM (Recorded σ) _) s) = _
  obtain ⟨a, r'⟩ := x r
  cases a <;> rfl

end Direct

variable {σ : Type}

mutual

/-- The value of an expression. -/
def Expr.direct (s : Setting σ) (scope : Scope) : Expr → Direct σ Value
  | .identifier name => Direct.read scope.environment name
  | .receiver => return scope.receiver
  | .constant kind text => return Constant.value kind text
  | .literal l => return l.value
  | .array elements => do
    let vs ← directAll s scope elements
    Direct.newArray vs
  | .object properties => do
    let entries ← directProperties s scope properties
    Direct.newObject (.ofEntries entries)
  | .member object name => do
    let target ← object.direct s scope
    Direct.read target name
  | .index object key => do
    let target ← object.direct s scope
    let k ← key.direct s scope
    let key ← Direct.keyOf k
    Direct.read target key
  | .call callee@(.member object name) args => do
    let target ← object.direct s scope
    let f ← Direct.read target name
    let vs ← directAll s scope args
    Direct.call s callee f target vs
  | .call callee@(.index object key) args => do
    let target ← object.direct s scope
    let k ← key.direct s scope
    let key ← Direct.keyOf k
    let f ← Direct.read target key
    let vs ← directAll s scope args
    Direct.call s callee f target vs
  | .call callee args => do
    let f ← callee.direct s scope
    let vs ← directAll s scope args
    Direct.call s callee f scope.receiver vs
  | .assign target value => do
    let v ← value.direct s scope
    target.directStore s scope v
  | .comma items => directLast s scope .undefined items
  | .ternary test consequent alternate => do
    let v ← test.direct s scope
    if v.truthy then consequent.direct s scope else alternate.direct s scope
  | .logical .and left right => do
    let v ← left.direct s scope
    if v.truthy then right.direct s scope else return v
  | .logical .or left right => do
    let v ← left.direct s scope
    if v.truthy then return v else right.direct s scope
  | .binary _ op left right => do
    let a ← left.direct s scope
    let b ← right.direct s scope
    Direct.binary s op a b
  | .unary op operand => do
    let v ← operand.direct s scope
    Direct.unary s op v
termination_by structural e => e

/-- Store a value in a name or member. -/
def Expr.directStore (s : Setting σ) (scope : Scope) (v : Value) : Expr → Direct σ Value
  | .identifier name => do
    Direct.write scope.environment name v
    return v
  | .member object name => do
    let target ← object.direct s scope
    Direct.write target name v
    return v
  | .index object key => do
    let target ← object.direct s scope
    let k ← key.direct s scope
    let key ← Direct.keyOf k
    Direct.write target key v
    return v
  | target => throw (.invalidAssignmentTarget target.print)
termination_by structural e => e

/-- The values of expressions, one after the other. -/
def directAll (s : Setting σ) (scope : Scope) : List Expr → Direct σ (List Value)
  | [] => return []
  | e :: rest => do
    let v ← e.direct s scope
    let vs ← directAll s scope rest
    return v :: vs
termination_by structural es => es

/-- The last value of expressions, `last` if there are none. -/
def directLast (s : Setting σ) (scope : Scope) (last : Value) : List Expr → Direct σ Value
  | [] => return last
  | e :: rest => do
    let v ← e.direct s scope
    directLast s scope v rest
termination_by structural es => es

/-- The entry of a property: its value, then its key. -/
def Property.direct (s : Setting σ) (scope : Scope) : Property → Direct σ (String × Value)
  | .named name value => do
    let v ← value.direct s scope
    return (name, v)
  | .constant kind text value => do
    let v ← value.direct s scope
    let key ← Direct.keyOf (Constant.value kind text)
    return (key, v)
  | .computed key value => do
    let v ← value.direct s scope
    let k ← key.direct s scope
    let key ← Direct.keyOf k
    return (key, v)
termination_by structural p => p

/-- The entries of properties, one after the other. -/
def directProperties (s : Setting σ) (scope : Scope) :
    List Property → Direct σ (List (String × Value))
  | [] => return []
  | p :: rest => do
    let entry ← p.direct s scope
    let entries ← directProperties s scope rest
    return entry :: entries
termination_by structural ps => ps

end

end LatentExpr
