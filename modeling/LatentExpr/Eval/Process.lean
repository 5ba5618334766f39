import LatentExpr.Eval.Operators
import LatentExpr.Value.Method

/-!
Evaluations as trees of the things they do. A process has finished, or it does one thing and goes on
with what it gets; where it waits, it waits for one value, and the two sides of a join are the only
parts that wait independently. Polling runs a process as far as the world allows and returns what is
left of it, so what was done is never done again.
-/
namespace LatentExpr

inductive Process where
  | done (v : Value)
  | fail (e : EvalError)
  /-- Wait until a value is not pending. -/
  | settle (v : Value) (next : Value → Process)
  | read (target : Value) (key : String) (next : Value → Process)
  | write (target : Value) (key : String) (value : Value) (next : Process)
  /-- The property key that a value names. -/
  | keyOf (v : Value) (next : String → Process)
  | newArray (elements : List Value) (next : Value → Process)
  | newObject (fields : Fields) (next : Value → Process)
  | call (f : Callable) (receiver : Value) (args : List Value) (next : Value → Process)
  | binary (op : BinaryOp) (a b : Value) (next : Value → Process)
  | unary (op : UnaryOp) (v : Value) (next : Value → Process)
  /-- Run two processes side by side. The first failure that is seen ends both. -/
  | join (left right : Process) (next : Value → Value → Process)

/-- What a process runs against besides the world: the host and the configured operators. -/
structure Setting (σ : Type) where
  host : Host σ
  operators : Operators σ

/-- How far a process has come. -/
inductive Progress where
  | finished (v : Value)
  | failed (e : EvalError)
  /-- It waits, and this is left of it. -/
  | waiting (rest : Process)

def Progress.ofOutcome : Outcome → Progress
  | .ok v => .finished v
  | .error e => .failed e

namespace World

variable {σ : Type}

/-- Call a built-in method or a function of the host. -/
def call (host : Host σ) (f : Callable) (receiver : Value) (args : List Value) (w : World σ) :
    Outcome × World σ :=
  match f with
  | .arrayMethod m =>
    let (outcome, heap) := w.heap.callArrayMethod m receiver args
    (outcome, { w with heap })
  | .stringMethod m => (w.heap.callStringMethod m receiver args, w)
  | .host id => host.call id receiver args w

end World

namespace Process

variable {σ : Type}

/-- Run a process as far as the world allows. Both sides of a join are run, left then right, unless
the left one fails. -/
def poll (s : Setting σ) : Process → World σ → Progress × World σ
  | done v, w => (.finished v, w)
  | fail e, w => (.failed e, w)
  | settle v next, w =>
    match w.settle s.host v with
    | (.settled v, w) => (next v).poll s w
    | (.failed e, w) => (.failed e, w)
    | (.waiting v, w) => (.waiting (settle v next), w)
  | read target key next, w =>
    match w.heap.getProperty target key with
    | .ok v => (next v).poll s w
    | .error e => (.failed e, w)
  | write target key value next, w =>
    match w.heap.setProperty target key value with
    | .ok heap => next.poll s { w with heap }
    | .error e => (.failed e, w)
  | keyOf v next, w => (next (w.heap.propertyKey v)).poll s w
  | newArray elements next, w =>
    let (v, heap) := w.heap.newArray elements.toArray
    (next v).poll s { w with heap }
  | newObject fields next, w =>
    let (v, heap) := w.heap.newObject fields
    (next v).poll s { w with heap }
  | call f receiver args next, w =>
    match w.call s.host f receiver args with
    | (.ok v, w) => (next v).poll s w
    | (.error e, w) => (.failed e, w)
  | binary op a b next, w =>
    match s.operators.applyBinary op a b w with
    | (.ok v, w) => (next v).poll s w
    | (.error e, w) => (.failed e, w)
  | unary op v next, w =>
    match s.operators.applyUnary op v w with
    | (.ok v, w) => (next v).poll s w
    | (.error e, w) => (.failed e, w)
  | join left right next, w =>
    match left.poll s w with
    | (.failed e, w) => (.failed e, w)
    | (.finished a, w) =>
      match right.poll s w with
      | (.failed e, w) => (.failed e, w)
      | (.finished b, w) => (next a b).poll s w
      | (.waiting right, w) => (.waiting (join (done a) right next), w)
    | (.waiting left, w) =>
      match right.poll s w with
      | (.failed e, w) => (.failed e, w)
      | (.finished b, w) => (.waiting (join left (done b) next), w)
      | (.waiting right, w) => (.waiting (join left right next), w)

/-- A process that goes on when another one has finished. -/
def andThen (p : Process) (next : Value → Process) : Process :=
  join p (done .undefined) fun v _ => next v

end Process

end LatentExpr
