import LatentExpr.Proofs.Eval.Run

/-!
What can be seen of an evaluation from outside: which functions it calls and which properties it writes, in
the order in which that happens. `observe` is `poll`, and `watch` is `run`, with a record of these events;
both are the plain functions once the record is forgotten.
-/
namespace LatentExpr

/-- What an evaluation does to its surroundings. -/
inductive Event where
  | called (f : Callable) (receiver : Value) (args : List Value)
  | wrote (target : Value) (key : String) (value : Value)
deriving DecidableEq

/-- A world and the events that led to it, the first one first. -/
structure Recorded (σ : Type) where
  world : World σ
  events : List Event

namespace Recorded
variable {σ : Type}

/-- A world in which nothing has happened yet. -/
def start (w : World σ) : Recorded σ := ⟨w, []⟩

/-- Time passes. -/
def wait (tick : σ → σ) (r : Recorded σ) : Recorded σ :=
  { r with world := { r.world with host := tick r.world.host } }

end Recorded

namespace Process
variable {σ : Type}

/-- Poll a process and record what it does. A write that is refused is no event, and a call that fails
is one. -/
def observe (s : Setting σ) : Process → Recorded σ → Progress × Recorded σ
  | done v, r => (.finished v, r)
  | fail e, r => (.failed e, r)
  | settle v next, r =>
    match r.world.settle s.host v with
    | (.settled v, w) => (next v).observe s ⟨w, r.events⟩
    | (.failed e, w) => (.failed e, ⟨w, r.events⟩)
    | (.waiting v, w) => (.waiting (settle v next), ⟨w, r.events⟩)
  | read target key next, r =>
    match r.world.heap.getProperty target key with
    | .ok v => (next v).observe s r
    | .error e => (.failed e, r)
  | write target key value next, r =>
    match r.world.heap.setProperty target key value with
    | .ok heap => next.observe s ⟨{ r.world with heap }, r.events ++ [.wrote target key value]⟩
    | .error e => (.failed e, r)
  | keyOf v next, r => (next (r.world.heap.propertyKey v)).observe s r
  | newArray elements next, r =>
    let (v, heap) := r.world.heap.newArray elements.toArray
    (next v).observe s ⟨{ r.world with heap }, r.events⟩
  | newObject fields next, r =>
    let (v, heap) := r.world.heap.newObject fields
    (next v).observe s ⟨{ r.world with heap }, r.events⟩
  | call f receiver args next, r =>
    match r.world.call s.host f receiver args with
    | (.ok v, w) => (next v).observe s ⟨w, r.events ++ [.called f receiver args]⟩
    | (.error e, w) => (.failed e, ⟨w, r.events ++ [.called f receiver args]⟩)
  | binary op a b next, r =>
    match s.operators.applyBinary op a b r.world with
    | (.ok v, w) => (next v).observe s ⟨w, r.events⟩
    | (.error e, w) => (.failed e, ⟨w, r.events⟩)
  | unary op v next, r =>
    match s.operators.applyUnary op v r.world with
    | (.ok v, w) => (next v).observe s ⟨w, r.events⟩
    | (.error e, w) => (.failed e, ⟨w, r.events⟩)
  | join left right next, r =>
    match left.observe s r with
    | (.failed e, r) => (.failed e, r)
    | (.finished a, r) =>
      match right.observe s r with
      | (.failed e, r) => (.failed e, r)
      | (.finished b, r) => (next a b).observe s r
      | (.waiting right, r) => (.waiting (join (done a) right next), r)
    | (.waiting left, r) =>
      match right.observe s r with
      | (.failed e, r) => (.failed e, r)
      | (.finished b, r) => (.waiting (join left (done b) next), r)
      | (.waiting right, r) => (.waiting (join left right next), r)

/-- Go on with the result of something that ended, or fail as it did. -/
def goOn {α : Type} (s : Setting σ) (next : α → Process) :
    Except EvalError α × Recorded σ → Progress × Recorded σ
  | (.ok a, r) => (next a).observe s r
  | (.error e, r) => (.failed e, r)

theorem observe_read (s : Setting σ) (target : Value) (key : String) (next : Value → Process)
    (r : Recorded σ) :
    (read target key next).observe s r = goOn s next (r.world.heap.getProperty target key, r) := by
  simp only [observe]
  cases r.world.heap.getProperty target key <;> rfl

theorem observe_call (s : Setting σ) (f : Callable) (receiver : Value) (args : List Value)
    (next : Value → Process) (r : Recorded σ) :
    (call f receiver args next).observe s r =
      let answer := r.world.call s.host f receiver args
      goOn s next (answer.1, ⟨answer.2, r.events ++ [.called f receiver args]⟩) := by
  simp only [observe]
  generalize r.world.call s.host f receiver args = answer
  obtain ⟨outcome, w⟩ := answer
  cases outcome <;> rfl

theorem observe_binary (s : Setting σ) (op : BinaryOp) (a b : Value) (next : Value → Process)
    (r : Recorded σ) :
    (binary op a b next).observe s r =
      let answer := s.operators.applyBinary op a b r.world
      goOn s next (answer.1, ⟨answer.2, r.events⟩) := by
  simp only [observe]
  generalize s.operators.applyBinary op a b r.world = answer
  obtain ⟨outcome, w⟩ := answer
  cases outcome <;> rfl

theorem observe_unary (s : Setting σ) (op : UnaryOp) (v : Value) (next : Value → Process)
    (r : Recorded σ) :
    (unary op v next).observe s r =
      let answer := s.operators.applyUnary op v r.world
      goOn s next (answer.1, ⟨answer.2, r.events⟩) := by
  simp only [observe]
  generalize s.operators.applyUnary op v r.world = answer
  obtain ⟨outcome, w⟩ := answer
  cases outcome <;> rfl

/-- Run a process and record what it does. -/
def watch (s : Setting σ) (tick : σ → σ) : Nat → Process → Recorded σ → Progress × Recorded σ
  | 0, p, r => p.observe s r
  | turns + 1, p, r =>
    match p.observe s r with
    | (.waiting rest, r) => rest.watch s tick turns (r.wait tick)
    | ended => ended

/-- Without its record, an observed process is polled. -/
theorem map_observe (s : Setting σ) (p : Process) (r : Recorded σ) :
    (p.observe s r).map id Recorded.world = p.poll s r.world := by
  induction p generalizing r with
  | done | fail => rfl
  | settle v next ih =>
    simp only [observe, poll]
    generalize r.world.settle s.host v = settled
    obtain ⟨answer, w⟩ := settled
    cases answer <;> simp [ih]
  | read target key next ih =>
    simp only [observe, poll]
    cases r.world.heap.getProperty target key <;> simp [ih]
  | write target key value next ih =>
    simp only [observe, poll]
    cases r.world.heap.setProperty target key value <;> simp [ih]
  | keyOf v next ih => exact ih _ _
  | newArray | newObject => simp only [observe, poll, *]
  | call f receiver args next ih =>
    simp only [observe, poll]
    generalize r.world.call s.host f receiver args = answer
    obtain ⟨outcome, w⟩ := answer
    cases outcome <;> simp [ih]
  | binary op a b next ih =>
    simp only [observe, poll]
    generalize s.operators.applyBinary op a b r.world = answer
    obtain ⟨outcome, w⟩ := answer
    cases outcome <;> simp [ih]
  | unary op v next ih =>
    simp only [observe, poll]
    generalize s.operators.applyUnary op v r.world = answer
    obtain ⟨outcome, w⟩ := answer
    cases outcome <;> simp [ih]
  | join left right next ihl ihr ihn =>
    simp only [observe, poll, ← ihl]
    generalize left.observe s r = polled
    obtain ⟨answer, r₁⟩ := polled
    cases answer with
    | failed e => rfl
    | finished a =>
      simp only [Prod.map, id_eq, ← ihr]
      generalize right.observe s r₁ = polled
      obtain ⟨answer, r₂⟩ := polled
      cases answer with
      | failed | waiting => rfl
      | finished b => exact ihn a b r₂
    | waiting left =>
      simp only [Prod.map, id_eq, ← ihr]
      generalize right.observe s r₁ = polled
      obtain ⟨answer, r₂⟩ := polled
      cases answer <;> rfl

/-- Without its record, a watched process is run. -/
theorem map_watch (s : Setting σ) (tick : σ → σ) (turns : Nat) (p : Process) (r : Recorded σ) :
    (p.watch s tick turns r).map id Recorded.world = p.run s tick turns r.world := by
  induction turns generalizing p r with
  | zero => exact map_observe s p r
  | succ turns ih =>
    have hpoll := map_observe s p r
    rw [watch, run]
    generalize p.observe s r = observed at hpoll ⊢
    obtain ⟨answer, r'⟩ := observed
    rw [← hpoll]
    cases answer with
    | finished | failed => rfl
    | waiting rest => exact ih rest _

theorem poll_of_observe {s : Setting σ} {p : Process} {r r' : Recorded σ} {answer : Progress}
    (h : p.observe s r = (answer, r')) : p.poll s r.world = (answer, r'.world) := by
  rw [← map_observe, h]
  rfl

theorem run_of_watch {s : Setting σ} {tick : σ → σ} {turns : Nat} {p : Process} {r r' : Recorded σ}
    {answer : Progress} (h : p.watch s tick turns r = (answer, r')) :
    p.run s tick turns r.world = (answer, r'.world) := by
  rw [← map_watch, h]
  rfl

/-- A run that is over stays as it is. -/
theorem watch_of_le {s : Setting σ} {tick : σ → σ} {p : Process} {r r' : Recorded σ}
    {answer : Progress} {n turns : Nat} (h : p.watch s tick n r = (answer, r'))
    (hover : answer.isWaiting = false) (hle : n ≤ turns) :
    p.watch s tick turns r = (answer, r') := by
  induction turns generalizing n p r with
  | zero =>
    obtain rfl := Nat.le_zero.1 hle
    exact h
  | succ turns ih =>
    cases hpoll : p.observe s r with
    | mk polled r₁ =>
      cases polled with
      | waiting rest =>
        cases n with
        | zero =>
          rw [watch, hpoll] at h
          obtain ⟨rfl, -⟩ := Prod.mk.inj h
          cases hover
        | succ n =>
          simp only [watch, hpoll] at h ⊢
          exact ih h (Nat.le_of_succ_le_succ hle)
      | finished | failed =>
        cases n <;> simpa only [watch, hpoll] using h

end Process

end LatentExpr
