import LatentExpr.Eval.Interpreter
import LatentExpr.Proofs.Eval.Run

/-!
Sequential expressions: those without binary operators, the only form whose operands are joined. Their
processes never do two things side by side, so such a process waits for one value at a time, and it
stops exactly if every value that it waits for comes (`Sequential.stops_iff`).
-/
namespace LatentExpr

/-! ### Sequential expressions -/

mutual

/-- Whether nothing in an expression is a binary operator. -/
def Expr.isSequential : Expr → Bool
  | .assign target value => target.isSequential && value.isSequential
  | .comma items => allSequential items
  | .ternary test consequent alternate =>
    test.isSequential && consequent.isSequential && alternate.isSequential
  | .logical _ left right => left.isSequential && right.isSequential
  | .binary .. => false
  | .unary _ operand => operand.isSequential
  | .identifier _ | .constant .. | .literal _ | .receiver => true
  | .call callee args => callee.isSequential && allSequential args
  | .member object _ => object.isSequential
  | .index object key => object.isSequential && key.isSequential
  | .array elements => allSequential elements
  | .object properties => allPropertiesSequential properties
termination_by structural e => e

def allSequential : List Expr → Bool
  | [] => true
  | e :: rest => e.isSequential && allSequential rest
termination_by structural es => es

def Property.isSequential : Property → Bool
  | .named _ value => value.isSequential
  | .constant _ _ value => value.isSequential
  | .computed key value => key.isSequential && value.isSequential
termination_by structural p => p

def allPropertiesSequential : List Property → Bool
  | [] => true
  | p :: rest => p.isSequential && allPropertiesSequential rest
termination_by structural ps => ps

end

/-! ### Sequential processes -/

/-- A process that does one thing after another, whatever it gets: nothing is joined, and no binary operator
is applied. -/
inductive Process.Sequential : Process → Prop where
  | done (v : Value) : Sequential (.done v)
  | fail (e : EvalError) : Sequential (.fail e)
  | settle {v : Value} {next : Value → Process} (hn : ∀ u, Sequential (next u)) :
    Sequential (.settle v next)
  | read {target : Value} {key : String} {next : Value → Process} (hn : ∀ v, Sequential (next v)) :
    Sequential (.read target key next)
  | write {target : Value} {key : String} {value : Value} {next : Process} (hn : Sequential next) :
    Sequential (.write target key value next)
  | keyOf {v : Value} {next : String → Process} (hn : ∀ key, Sequential (next key)) :
    Sequential (.keyOf v next)
  | newArray {elements : List Value} {next : Value → Process} (hn : ∀ v, Sequential (next v)) :
    Sequential (.newArray elements next)
  | newObject {fields : Fields} {next : Value → Process} (hn : ∀ v, Sequential (next v)) :
    Sequential (.newObject fields next)
  | call {f : Callable} {receiver : Value} {args : List Value} {next : Value → Process}
    (hn : ∀ v, Sequential (next v)) : Sequential (.call f receiver args next)
  | unary {op : UnaryOp} {v : Value} {next : Value → Process} (hn : ∀ v, Sequential (next v)) :
    Sequential (.unary op v next)

section Eval
variable {s : Scope}

open Process

theorem Process.Sequential.readSettled {target : Value} {key : String} {next : Value → Process}
    (hn : ∀ v, (next v).Sequential) : (Process.readSettled target key next).Sequential :=
  .read fun _ => .settle hn

theorem Process.Sequential.callSettled {callee : Expr} {f receiver : Value} {args : List Value}
    {next : Value → Process} (hn : ∀ v, (next v).Sequential) :
    (Process.callSettled callee f receiver args next).Sequential := by
  cases f with
  | function f => exact .call fun _ => .settle hn
  | _ => exact .fail _

mutual

/-- The process of a sequential expression is sequential if what goes on with its value is. -/
theorem Expr.sequential_eval (e : Expr) (next : Value → Process) (he : e.isSequential = true)
    (hn : ∀ v, (next v).Sequential) : (e.eval s next).Sequential := by
  cases e with
  | binary => cases he
  | identifier name => exact .readSettled hn
  | receiver => exact .settle hn
  | constant kind text => exact hn _
  | literal l => exact hn _
  | array elements => exact sequential_evalAll elements _ he fun vs => .newArray hn
  | object properties => exact sequential_evalProperties properties _ he fun entries => .newObject hn
  | member object name => exact Expr.sequential_eval object _ he fun _ => .readSettled hn
  | index object key =>
    obtain ⟨ho, hk⟩ := Bool.and_eq_true_iff.1 he
    exact Expr.sequential_eval object _ ho fun _ =>
      Expr.sequential_eval key _ hk fun _ => .keyOf fun _ => .readSettled hn
  | call callee args =>
    obtain ⟨hc, ha⟩ := Bool.and_eq_true_iff.1 he
    have hargs : ∀ f receiver, (evalAll s args fun vs =>
        callSettled callee f receiver vs next).Sequential :=
      fun f receiver => sequential_evalAll args _ ha fun vs => .callSettled hn
    have hcallee := fun next => Expr.sequential_eval callee next hc
    cases callee with
    | member object name =>
      exact Expr.sequential_eval object _ hc fun target => .readSettled fun f => hargs f target
    | index object key =>
      obtain ⟨ho, hk⟩ := Bool.and_eq_true_iff.1 hc
      exact Expr.sequential_eval object _ ho fun target =>
        Expr.sequential_eval key _ hk fun _ => .keyOf fun _ => .readSettled fun f => hargs f target
    | _ => exact hcallee _ fun f => .settle fun receiver => hargs f receiver
  | assign target value =>
    obtain ⟨ht, hv⟩ := Bool.and_eq_true_iff.1 he
    exact Expr.sequential_eval value _ hv fun v => Expr.sequential_store target v next ht hn
  | comma items => exact sequential_evalLast items .undefined next he hn
  | ternary test consequent alternate =>
    obtain ⟨htc, ha⟩ := Bool.and_eq_true_iff.1 he
    obtain ⟨ht, hc⟩ := Bool.and_eq_true_iff.1 htc
    refine Expr.sequential_eval test _ ht fun v => ?_
    cases v.truthy with
    | true => exact Expr.sequential_eval consequent next hc hn
    | false => exact Expr.sequential_eval alternate next ha hn
  | logical op left right =>
    obtain ⟨hl, hr⟩ := Bool.and_eq_true_iff.1 he
    have hright := Expr.sequential_eval right next hr hn
    cases op with
    | and =>
      refine Expr.sequential_eval left _ hl fun v => ?_
      cases v.truthy with
      | true => exact hright
      | false => exact hn v
    | or =>
      refine Expr.sequential_eval left _ hl fun v => ?_
      cases v.truthy with
      | true => exact hn v
      | false => exact hright
  | unary op operand => exact Expr.sequential_eval operand _ he fun _ => .unary hn

theorem Expr.sequential_store (target : Expr) (value : Value) (next : Value → Process)
    (ht : target.isSequential = true) (hn : ∀ v, (next v).Sequential) :
    (target.store s value next).Sequential := by
  cases target with
  | identifier name => exact .settle fun v => .write (hn v)
  | member object name =>
    exact .settle fun v => Expr.sequential_eval object _ ht fun _ => .write (hn v)
  | index object key =>
    obtain ⟨ho, hk⟩ := Bool.and_eq_true_iff.1 ht
    exact .settle fun v => Expr.sequential_eval object _ ho fun _ =>
      Expr.sequential_eval key _ hk fun _ => .keyOf fun _ => .write (hn v)
  | _ => exact .settle fun _ => .fail _

theorem sequential_evalAll (es : List Expr) (next : List Value → Process)
    (he : allSequential es = true) (hn : ∀ vs, (next vs).Sequential) :
    (evalAll s es next).Sequential := by
  cases es with
  | nil => exact hn []
  | cons e rest =>
    obtain ⟨hfirst, hrest⟩ := Bool.and_eq_true_iff.1 he
    exact Expr.sequential_eval e _ hfirst fun v =>
      sequential_evalAll rest _ hrest fun vs => hn (v :: vs)

theorem sequential_evalLast (es : List Expr) (last : Value) (next : Value → Process)
    (he : allSequential es = true) (hn : ∀ v, (next v).Sequential) :
    (evalLast s last es next).Sequential := by
  cases es with
  | nil => exact hn last
  | cons e rest =>
    obtain ⟨hfirst, hrest⟩ := Bool.and_eq_true_iff.1 he
    exact Expr.sequential_eval e _ hfirst fun v => sequential_evalLast rest v next hrest hn

theorem Property.sequential_eval (p : Property) (next : String × Value → Process)
    (hp : p.isSequential = true) (hn : ∀ entry, (next entry).Sequential) :
    (p.eval s next).Sequential := by
  cases p with
  | named name value => exact Expr.sequential_eval value _ hp fun v => hn (name, v)
  | constant kind text value =>
    exact Expr.sequential_eval value _ hp fun v => .keyOf fun key => hn (key, v)
  | computed key value =>
    obtain ⟨hk, hv⟩ := Bool.and_eq_true_iff.1 hp
    exact Expr.sequential_eval value _ hv fun v =>
      Expr.sequential_eval key _ hk fun _ => .keyOf fun key => hn (key, v)

theorem sequential_evalProperties (ps : List Property) (next : List (String × Value) → Process)
    (hp : allPropertiesSequential ps = true) (hn : ∀ entries, (next entries).Sequential) :
    (evalProperties s ps next).Sequential := by
  cases ps with
  | nil => exact hn []
  | cons p rest =>
    obtain ⟨hfirst, hrest⟩ := Bool.and_eq_true_iff.1 hp
    exact Property.sequential_eval p _ hfirst fun entry =>
      sequential_evalProperties rest _ hrest fun entries => hn (entry :: entries)

end

end Eval

/-! ### Ending -/

namespace Process
variable {σ : Type} {s : Setting σ} {tick : σ → σ}

/-- Every value that a process waits for comes in the end, if only that value is awaited from then on. -/
def Completes (s : Setting σ) (tick : σ → σ) (p : Process) (w : World σ) : Prop :=
  ∀ turns v next w', p.run s tick turns w = (.waiting (.settle v next), w') →
    ∃ more, ((settle v .done).run s tick more { w' with host := tick w'.host }).1.isWaiting = false

/-- A run ends after some number of polls. -/
def Stops (s : Setting σ) (tick : σ → σ) (p : Process) (w : World σ) : Prop :=
  ∃ turns, (p.run s tick turns w).1.isWaiting = false

theorem run_congr {p q : Process} {w w' : World σ} (h : p.poll s w = q.poll s w') (turns : Nat) :
    p.run s tick turns w = q.run s tick turns w' := by
  cases turns with
  | zero => exact h
  | succ turns => simp only [run, h]

theorem run_of_over {p : Process} {w w' : World σ} {answer : Progress}
    (h : p.poll s w = (answer, w')) (hover : answer.isWaiting = false) (turns : Nat) :
    p.run s tick turns w = (answer, w') := by
  cases turns with
  | zero => exact h
  | succ turns =>
    rw [run, h]
    cases answer with
    | finished | failed => rfl
    | waiting => cases hover

theorem Stops.of_over {p : Process} {w w' : World σ} {answer : Progress}
    (h : p.poll s w = (answer, w')) (hover : answer.isWaiting = false) : Stops s tick p w :=
  ⟨0, by rw [run, h]; exact hover⟩

theorem Stops.congr {p q : Process} {w w' : World σ} (h : p.poll s w = q.poll s w')
    (hq : Stops s tick q w') : Stops s tick p w := by
  obtain ⟨turns, hover⟩ := hq
  exact ⟨turns, by rwa [run_congr h]⟩

/-- A process that waits stops when what is left of it does. -/
theorem stops_iff_of_waiting {p rest : Process} {w w' : World σ}
    (h : p.poll s w = (.waiting rest, w')) :
    Stops s tick p w ↔ Stops s tick rest { w' with host := tick w'.host } := by
  constructor
  · rintro ⟨turns, hover⟩
    cases turns with
    | zero =>
      rw [run, h] at hover
      cases hover
    | succ turns => exact ⟨turns, by rwa [run_succ_of_waiting h] at hover⟩
  · rintro ⟨turns, hover⟩
    exact ⟨turns + 1, by rwa [run_succ_of_waiting h]⟩

theorem Completes.congr {p q : Process} {w w' : World σ} (h : p.poll s w = q.poll s w')
    (hp : Completes s tick p w) : Completes s tick q w' := by
  intro turns v next w'' hrun
  exact hp turns v next w'' (by rwa [run_congr h])

theorem Completes.later {p rest : Process} {w w' : World σ} (h : p.poll s w = (.waiting rest, w'))
    (hp : Completes s tick p w) : Completes s tick rest { w' with host := tick w'.host } := by
  intro turns v next w'' hrun
  exact hp (turns + 1) v next w'' (by rwa [run_succ_of_waiting h])

/-- One poll of a process that waits for a value. -/
theorem poll_settle_cases (s : Setting σ) (v : Value) (w : World σ) :
    (∃ u w', ∀ next, (settle v next).poll s w = (next u).poll s w') ∨
      (∃ e w', ∀ next, (settle v next).poll s w = (.failed e, w')) ∨
      ∃ v' w', ∀ next, (settle v next).poll s w = (.waiting (settle v' next), w') := by
  cases h : w.settle s.host v with
  | mk answer w' =>
    cases answer with
    | settled u => exact .inl ⟨u, w', fun next => by simp only [poll, h]⟩
    | failed e => exact .inr (.inl ⟨e, w', fun next => by simp only [poll, h]⟩)
    | waiting v' => exact .inr (.inr ⟨v', w', fun next => by simp only [poll, h]⟩)

/-- The value that a process waits for comes, if everything that the process waits for does. -/
theorem Completes.stops_awaited {v : Value} {next : Value → Process} {w : World σ}
    (hc : Completes s tick (settle v next) w) : Stops s tick (settle v .done) w := by
  rcases poll_settle_cases s v w with ⟨u, w', h⟩ | ⟨e, w', h⟩ | ⟨v', w', h⟩
  · exact .of_over (h .done) rfl
  · exact .of_over (h .done) rfl
  · exact (stops_iff_of_waiting (h .done)).2 (hc 0 v' next w' (h next))

/-- A process that waits for a value that comes stops if what goes on with the value does. -/
theorem Stops.settle {v : Value} {next : Value → Process} {w : World σ}
    (hv : Stops s tick (settle v .done) w) (hc : Completes s tick (settle v next) w)
    (hn : ∀ u w', Completes s tick (next u) w' → Stops s tick (next u) w') :
    Stops s tick (Process.settle v next) w := by
  obtain ⟨turns, hover⟩ := hv
  induction turns generalizing v w with
  | zero =>
    rcases poll_settle_cases s v w with ⟨u, w', h⟩ | ⟨e, w', h⟩ | ⟨v', w', h⟩
    · exact .congr (h next) (hn u w' (hc.congr (h next)))
    · exact .of_over (h next) rfl
    · rw [run, h] at hover
      cases hover
  | succ turns ih =>
    rcases poll_settle_cases s v w with ⟨u, w', h⟩ | ⟨e, w', h⟩ | ⟨v', w', h⟩
    · exact .congr (h next) (hn u w' (hc.congr (h next)))
    · exact .of_over (h next) rfl
    · rw [run_succ_of_waiting (h .done)] at hover
      exact (stops_iff_of_waiting (h next)).2 (ih (hc.later (h next)) hover)

theorem Stops.awaited {v : Value} {next : Value → Process} {w : World σ}
    (hp : Stops s tick (Process.settle v next) w) : Stops s tick (Process.settle v .done) w := by
  obtain ⟨turns, hover⟩ := hp
  induction turns generalizing v w with
  | zero =>
    rcases poll_settle_cases s v w with ⟨u, w', h⟩ | ⟨e, w', h⟩ | ⟨v', w', h⟩
    · exact .of_over (h .done) rfl
    · exact .of_over (h .done) rfl
    · rw [run, h] at hover
      cases hover
  | succ turns ih =>
    rcases poll_settle_cases s v w with ⟨u, w', h⟩ | ⟨e, w', h⟩ | ⟨v', w', h⟩
    · exact .of_over (h .done) rfl
    · exact .of_over (h .done) rfl
    · rw [run_succ_of_waiting (h next)] at hover
      exact (stops_iff_of_waiting (h .done)).2 (ih hover)

theorem Stops.completes {p : Process} {w : World σ} (hp : Stops s tick p w) :
    Completes s tick p w := by
  intro turns v next w' hrun
  suffices Stops s tick (Process.settle v next) { w' with host := tick w'.host } from this.awaited
  induction turns generalizing p w with
  | zero => exact (stops_iff_of_waiting hrun).1 hp
  | succ turns ih =>
    cases h : p.poll s w with
    | mk answer w₁ =>
      cases answer with
      | finished | failed =>
        rw [run_of_over h rfl] at hrun
        cases hrun
      | waiting rest =>
        rw [run_succ_of_waiting h] at hrun
        exact ih ((stops_iff_of_waiting h).1 hp) hrun

/-- A process stops whose poll is over, or is the poll of one that stops. -/
theorem Stops.of_poll {p : Process} {w : World σ} (hc : Completes s tick p w)
    (h : (∃ answer w', p.poll s w = (answer, w') ∧ answer.isWaiting = false) ∨
      ∃ q w', p.poll s w = q.poll s w' ∧ (Completes s tick q w' → Stops s tick q w')) :
    Stops s tick p w := by
  rcases h with ⟨answer, w', h, hover⟩ | ⟨q, w', h, hq⟩
  · exact .of_over h hover
  · exact .congr h (hq (hc.congr h))

theorem Sequential.stops {p : Process} (hp : p.Sequential) {w : World σ}
    (hc : Completes s tick p w) : Stops s tick p w := by
  induction hp generalizing w with
  | done | fail => exact .of_over rfl rfl
  | settle _ ih => exact hc.stops_awaited.settle hc fun u _ => ih u
  | @read target key next _ ih =>
    refine .of_poll hc ?_
    simp only [poll]
    cases w.heap.getProperty target key with
    | ok v => exact .inr ⟨next v, w, rfl, ih v⟩
    | error e => exact .inl ⟨_, _, rfl, rfl⟩
  | @write target key value next _ ih =>
    refine .of_poll hc ?_
    simp only [poll]
    cases w.heap.setProperty target key value with
    | ok heap => exact .inr ⟨next, _, rfl, ih⟩
    | error e => exact .inl ⟨_, _, rfl, rfl⟩
  | @keyOf v next _ ih => exact .of_poll hc (.inr ⟨next _, w, rfl, ih _⟩)
  | @newArray elements next _ ih => exact .of_poll hc (.inr ⟨next _, _, rfl, ih _⟩)
  | @newObject fields next _ ih => exact .of_poll hc (.inr ⟨next _, _, rfl, ih _⟩)
  | @call f receiver args next _ ih =>
    refine .of_poll hc ?_
    simp only [poll]
    generalize w.call s.host f receiver args = answer
    obtain ⟨outcome, w'⟩ := answer
    cases outcome with
    | ok v => exact .inr ⟨next v, w', rfl, ih v⟩
    | error e => exact .inl ⟨_, _, rfl, rfl⟩
  | @unary op v next _ ih =>
    refine .of_poll hc ?_
    simp only [poll]
    generalize s.operators.applyUnary op v w = answer
    obtain ⟨outcome, w'⟩ := answer
    cases outcome with
    | ok u => exact .inr ⟨next u, w', rfl, ih u⟩
    | error e => exact .inl ⟨_, _, rfl, rfl⟩

/-- A sequential process stops exactly if everything that it waits for comes. -/
theorem Sequential.stops_iff {p : Process} (hp : p.Sequential) {w : World σ} :
    Stops s tick p w ↔ Completes s tick p w :=
  ⟨Stops.completes, hp.stops⟩

end Process

end LatentExpr
