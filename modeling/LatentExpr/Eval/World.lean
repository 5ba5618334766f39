import LatentExpr.Value.Heap

/-!
What an evaluation runs against: a heap, the outcomes of pending values that are known, and a host. The
host answers calls of its functions and says, whenever it is asked, whether a pending value has become
available; an outcome is remembered, and the host is not asked about it again.
-/
namespace LatentExpr

/-- A heap, an outcome for each pending value that has one, and the state of a host. -/
structure World (σ : Type) where
  heap : Heap
  outcomes : Array (Option Outcome)
  host : σ

/-- A host. It may change anything in the world when it is called or asked. -/
structure Host (σ : Type) where
  /-- Call a function with a receiver and arguments. -/
  call : Nat → Value → List Value → World σ → Outcome × World σ
  /-- Ask for the outcome of a pending value. -/
  poll : Nat → World σ → Option Outcome × World σ

namespace World

variable {σ : Type}

/-- A fresh pending value, for which the host will be asked. -/
def newPending (w : World σ) : Nat × World σ :=
  (w.outcomes.size, { w with outcomes := w.outcomes.push none })

def remember (w : World σ) (id : Nat) (outcome : Outcome) : World σ :=
  { w with outcomes := w.outcomes.setIfInBounds id (some outcome) }

/-- The remembered outcome of a pending value. -/
def outcome? (w : World σ) (id : Nat) : Option Outcome := w.outcomes[id]?.join

/-- The outcome of a pending value, if it is available now. -/
def poll (host : Host σ) (id : Nat) (w : World σ) : Option Outcome × World σ :=
  match w.outcome? id with
  | some outcome => (some outcome, w)
  | none =>
    match host.poll id w with
    | (some outcome, w) => (some outcome, w.remember id outcome)
    | (none, w) => (none, w)

/-- How far a value that may be pending has come. -/
inductive Settling where
  | settled (v : Value)
  | failed (e : EvalError)
  /-- Still waiting, for this value. -/
  | waiting (v : Value)

/-- Follow pending values to a value that is not, as far as possible now. `fuel` bounds the number of
pending values on the way. -/
def settleWithin (host : Host σ) : Nat → Value → World σ → Settling × World σ
  | 0, v, w => (.waiting v, w)
  | fuel + 1, .pending id, w =>
    match w.poll host id with
    | (some (.ok v), w) => settleWithin host fuel v w
    | (some (.error e), w) => (.failed e, w)
    | (none, w) => (.waiting (.pending id), w)
  | _ + 1, v, w => (.settled v, w)

/-- Follow pending values to a value that is not. Among the pending values that there are at the start a chain
of different ones is no longer than their number, and a chain that returns to one of them never ends. They are
counted before the host is asked: if it makes more of them while it is asked, the value that is waited for may be
available already, and is followed on when it is polled next. -/
def settle (host : Host σ) (v : Value) (w : World σ) : Settling × World σ :=
  settleWithin host (w.outcomes.size + 1) v w

end World

end LatentExpr
