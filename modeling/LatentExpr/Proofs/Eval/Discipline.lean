import LatentExpr.Eval.Interpreter
import LatentExpr.Proofs.Eval.Run
import LatentExpr.Proofs.Expr.Throughout

/-!
Processes that keep to a discipline. A discipline says which values a process may go on with and hand to an
operation, which operators it may apply and which errors it may fail with. The process of an expression
follows a discipline if the operators and assignments in the expression do (`Expr.follows_eval`), and a process
that follows one goes on doing so in a setting that upholds it: whatever a poll comes to, and whatever is left
after it, follows the discipline again (`Follows.poll`, `Follows.visits`).
-/
namespace LatentExpr

/-- What a process is held to. -/
structure Discipline where
  /-- The values that it goes on with, and that it hands to operations. -/
  value : Value → Prop
  /-- The operators that it applies. -/
  binary : BinaryOp → Prop
  unary : UnaryOp → Prop
  /-- The errors that it fails with. -/
  error : EvalError → Prop

/-- A discipline that allows what every evaluation does: it goes on with values that are not pending, and it
finds that something cannot be called. -/
structure Discipline.Lenient (d : Discipline) : Prop where
  value : ∀ {v}, v.isPending = false → d.value v
  notCallable : ∀ callee kind, d.error (.notCallable callee kind)

/-- What a discipline asks of a single expression, its parts apart. -/
def Discipline.Admits (d : Discipline) : Expr → Prop
  | .assign target _ => target.isWritable = true ∨ d.error (.invalidAssignmentTarget target.print)
  | .binary _ op _ _ => d.binary op
  | .unary op _ => d.unary op
  | _ => True

/-! ### Processes -/

namespace Process

/-- A process follows a discipline, whatever it gets. -/
inductive Follows (d : Discipline) : Process → Prop where
  | done {v : Value} (hv : d.value v) : Follows d (.done v)
  | fail {e : EvalError} (he : d.error e) : Follows d (.fail e)
  | settle {v : Value} {next : Value → Process} (hn : ∀ u, u.isPending = false → Follows d (next u)) :
    Follows d (.settle v next)
  | read {target : Value} {key : String} {next : Value → Process} (hn : ∀ v, Follows d (next v)) :
    Follows d (.read target key next)
  | write {target : Value} {key : String} {value : Value} {next : Process} (hv : d.value value)
    (hn : Follows d next) : Follows d (.write target key value next)
  | keyOf {v : Value} {next : String → Process} (hn : ∀ key, Follows d (next key)) :
    Follows d (.keyOf v next)
  | newArray {elements : List Value} {next : Value → Process} (he : ∀ v ∈ elements, d.value v)
    (hn : ∀ v, v.isPending = false → Follows d (next v)) : Follows d (.newArray elements next)
  | newObject {fields : Fields} {next : Value → Process} (hf : ∀ f ∈ fields, d.value f.2)
    (hn : ∀ v, v.isPending = false → Follows d (next v)) : Follows d (.newObject fields next)
  | call {f : Callable} {receiver : Value} {args : List Value} {next : Value → Process}
    (hr : d.value receiver) (ha : ∀ v ∈ args, d.value v) (hn : ∀ v, Follows d (next v)) :
    Follows d (.call f receiver args next)
  | binary {op : BinaryOp} {a b : Value} {next : Value → Process} (hop : d.binary op) (ha : d.value a)
    (hb : d.value b) (hn : ∀ v, d.value v → Follows d (next v)) : Follows d (.binary op a b next)
  | unary {op : UnaryOp} {v : Value} {next : Value → Process} (hop : d.unary op) (hv : d.value v)
    (hn : ∀ v, d.value v → Follows d (next v)) : Follows d (.unary op v next)
  | join {left right : Process} {next : Value → Value → Process} (hl : Follows d left)
    (hr : Follows d right) (hn : ∀ a b, d.value a → d.value b → Follows d (next a b)) :
    Follows d (.join left right next)

end Process

section Eval
variable {d : Discipline} {s : Scope}

open Process

theorem Process.Follows.readSettled {target : Value} {key : String} {next : Value → Process}
    (hn : ∀ v, v.isPending = false → (next v).Follows d) :
    (Process.readSettled target key next).Follows d :=
  .read fun _ => .settle hn

theorem Process.Follows.callSettled (hd : d.Lenient) {callee : Expr} {f receiver : Value}
    {args : List Value} {next : Value → Process} (hr : d.value receiver) (ha : ∀ v ∈ args, d.value v)
    (hn : ∀ v, d.value v → (next v).Follows d) :
    (Process.callSettled callee f receiver args next).Follows d := by
  cases f with
  | function f => exact .call hr ha fun _ => .settle fun u hu => hn u (hd.value hu)
  | _ => exact .fail (hd.notCallable _ _)

mutual

/-- The process of an expression follows a discipline that admits every expression in it, if what goes on
with its value does. -/
theorem Expr.follows_eval (hd : d.Lenient) (e : Expr) (next : Value → Process)
    (he : e.Throughout d.Admits fun _ => True) (hn : ∀ v, d.value v → (next v).Follows d) :
    (e.eval s next).Follows d := by
  have hsettled : ∀ v, v.isPending = false → (next v).Follows d := fun v hv => hn v (hd.value hv)
  cases e with
  | identifier name => exact .readSettled hsettled
  | receiver => exact .settle hsettled
  | constant kind text => exact hsettled _ (Value.isPending_of_isPlain (isPlain_constant kind text))
  | literal l => exact hsettled _ (Value.isPending_of_isPlain (isPlain_literal l))
  | array elements =>
    exact follows_evalAll hd elements _ he.2 fun vs hvs => .newArray hvs hsettled
  | object properties =>
    exact follows_evalProperties hd properties _ he.2 fun entries hes =>
      .newObject (Fields.forall_ofEntries hes) hsettled
  | member object name =>
    exact Expr.follows_eval hd object _ he.2 fun _ _ => .readSettled hsettled
  | index object key =>
    exact Expr.follows_eval hd object _ he.2.1 fun _ _ =>
      Expr.follows_eval hd key _ he.2.2 fun _ _ => .keyOf fun _ => .readSettled hsettled
  | call callee args =>
    obtain ⟨-, hc, ha⟩ := he
    have hcall (f receiver : Value) (hr : d.value receiver) :
        (evalAll s args fun vs => callSettled callee f receiver vs next).Follows d :=
      follows_evalAll hd args _ ha fun vs hvs => .callSettled hd hr hvs hn
    have hcallee := fun next => Expr.follows_eval hd callee next hc
    cases callee with
    | member object name =>
      exact Expr.follows_eval hd object _ hc.2 fun target ht => .readSettled fun f _ => hcall f target ht
    | index object key =>
      exact Expr.follows_eval hd object _ hc.2.1 fun target ht =>
        Expr.follows_eval hd key _ hc.2.2 fun _ _ => .keyOf fun _ => .readSettled fun f _ =>
          hcall f target ht
    | _ =>
      exact hcallee _ fun f _ => .settle fun receiver hr => hcall f receiver (hd.value hr)
  | assign target value =>
    exact Expr.follows_eval hd value _ he.2.2 fun v _ => Expr.follows_store hd target v next he.1 he.2.1 hn
  | comma items => exact follows_evalLast hd items .undefined next (hd.value rfl) he.2 hn
  | ternary test consequent alternate =>
    obtain ⟨-, ht, hc, ha⟩ := he
    refine Expr.follows_eval hd test _ ht fun v _ => ?_
    cases hv : v.truthy with
    | true => exact Expr.follows_eval hd consequent next hc hn
    | false => exact Expr.follows_eval hd alternate next ha hn
  | logical op left right =>
    obtain ⟨-, hl, hr⟩ := he
    cases op
    all_goals
      refine Expr.follows_eval hd left _ hl fun v hv => ?_
      cases ht : v.truthy
      all_goals first | exact hn v hv | exact Expr.follows_eval hd right next hr hn
  | binary level op left right =>
    exact .join (Expr.follows_eval hd left _ he.2.1 fun _ => .done)
      (Expr.follows_eval hd right _ he.2.2 fun _ => .done) fun a b ha hb => .binary he.1 ha hb hn
  | unary op operand =>
    exact Expr.follows_eval hd operand _ he.2 fun v hv => .unary he.1 hv hn

theorem Expr.follows_store (hd : d.Lenient) (target : Expr) (value : Value) (next : Value → Process)
    (hw : target.isWritable = true ∨ d.error (.invalidAssignmentTarget target.print))
    (ht : target.Throughout d.Admits fun _ => True) (hn : ∀ v, d.value v → (next v).Follows d) :
    (target.store s value next).Follows d := by
  have hwrite (v target : Value) (key : String) (hv : v.isPending = false) :
      (Process.write target key v (next v)).Follows d := .write (hd.value hv) (hn v (hd.value hv))
  cases target with
  | identifier name => exact .settle fun v hv => hwrite v _ name hv
  | member object name =>
    exact .settle fun v hv => Expr.follows_eval hd object _ ht.2 fun target _ => hwrite v target name hv
  | index object key =>
    exact .settle fun v hv => Expr.follows_eval hd object _ ht.2.1 fun target _ =>
      Expr.follows_eval hd key _ ht.2.2 fun _ _ => .keyOf fun key => hwrite v target key hv
  | _ => exact .settle fun _ _ => .fail (hw.resolve_left (by simp [Expr.isWritable]))

theorem follows_evalAll (hd : d.Lenient) (es : List Expr) (next : List Value → Process)
    (he : ThroughoutAll d.Admits (fun _ => True) es)
    (hn : ∀ vs, (∀ v ∈ vs, d.value v) → (next vs).Follows d) : (evalAll s es next).Follows d := by
  cases es with
  | nil => exact hn [] (by simp)
  | cons e rest =>
    exact Expr.follows_eval hd e _ he.1 fun v hv =>
      follows_evalAll hd rest _ he.2 fun vs hvs => hn _ (List.forall_mem_cons.2 ⟨hv, hvs⟩)

theorem follows_evalLast (hd : d.Lenient) (es : List Expr) (last : Value) (next : Value → Process)
    (hlast : d.value last) (he : ThroughoutAll d.Admits (fun _ => True) es)
    (hn : ∀ v, d.value v → (next v).Follows d) : (evalLast s last es next).Follows d := by
  cases es with
  | nil => exact hn last hlast
  | cons e rest =>
    exact Expr.follows_eval hd e _ he.1 fun v hv => follows_evalLast hd rest v next hv he.2 hn

theorem Property.follows_eval (hd : d.Lenient) (p : Property) (next : String × Value → Process)
    (hp : p.Throughout d.Admits fun _ => True)
    (hn : ∀ e : String × Value, d.value e.2 → (next e).Follows d) : (p.eval s next).Follows d := by
  cases p with
  | named name value => exact Expr.follows_eval hd value _ hp.2 fun v hv => hn (name, v) hv
  | constant kind text value =>
    exact Expr.follows_eval hd value _ hp.2 fun v hv => .keyOf fun key => hn (key, v) hv
  | computed key value =>
    exact Expr.follows_eval hd value _ hp.2.2 fun v hv =>
      Expr.follows_eval hd key _ hp.2.1 fun _ _ => .keyOf fun key => hn (key, v) hv

theorem follows_evalProperties (hd : d.Lenient) (ps : List Property)
    (next : List (String × Value) → Process)
    (hp : ThroughoutProperties d.Admits (fun _ => True) ps)
    (hn : ∀ es : List (String × Value), (∀ e ∈ es, d.value e.2) → (next es).Follows d) :
    (evalProperties s ps next).Follows d := by
  cases ps with
  | nil => exact hn [] (by simp)
  | cons p rest =>
    exact Property.follows_eval hd p _ hp.1 fun e he =>
      follows_evalProperties hd rest _ hp.2 fun es hes => hn _ (List.forall_mem_cons.2 ⟨he, hes⟩)

end

end Eval

/-! ### Settings -/

section Setting
variable {σ : Type} {d : Discipline} {I : World σ → Prop} {s : Setting σ} {w : World σ}

/-- In a setting, all that a process does while it follows a discipline leads to values and errors that the
discipline allows, and to worlds in which the invariant `I` holds again. -/
structure Setting.Upholds (s : Setting σ) (d : Discipline) (I : World σ → Prop) : Prop where
  change : ∀ {w} heap, I w → I { w with heap }
  ask : ∀ {w} id, I w →
    I (w.poll s.host id).2 ∧ ∀ e, (w.poll s.host id).1 = some (.error e) → d.error e
  read : ∀ {h : Heap} {target key e}, h.getProperty target key = .error e → d.error e
  write : ∀ {h : Heap} {target key value e}, h.setProperty target key value = .error e → d.error e
  call : ∀ {w} f receiver args, d.value receiver → (∀ v ∈ args, d.value v) → I w →
    I (w.call s.host f receiver args).2 ∧
      ∀ e, (w.call s.host f receiver args).1 = .error e → d.error e
  binary : ∀ {w} op a b, d.binary op → d.value a → d.value b → I w →
    I (s.operators.applyBinary op a b w).2 ∧
      (∀ v, (s.operators.applyBinary op a b w).1 = .ok v → d.value v) ∧
        ∀ e, (s.operators.applyBinary op a b w).1 = .error e → d.error e
  unary : ∀ {w} op v, d.unary op → d.value v → I w →
    I (s.operators.applyUnary op v w).2 ∧
      (∀ u, (s.operators.applyUnary op v w).1 = .ok u → d.value u) ∧
        ∀ e, (s.operators.applyUnary op v w).1 = .error e → d.error e

/-- How waiting for a value may go. -/
inductive World.Settling.Follows (d : Discipline) : World.Settling → Prop where
  | settled {v : Value} (hv : v.isPending = false) : Follows d (.settled v)
  | failed {e : EvalError} (he : d.error e) : Follows d (.failed e)
  | waiting (v : Value) : Follows d (.waiting v)

theorem World.follows_settleWithin (hs : s.Upholds d I) (hw : I w) (fuel : Nat) (v : Value) :
    (settleWithin s.host fuel v w).1.Follows d ∧ I (settleWithin s.host fuel v w).2 := by
  induction fuel generalizing v w with
  | zero => exact ⟨.waiting v, hw⟩
  | succ fuel ih =>
    cases v with
    | pending id =>
      obtain ⟨hw', he⟩ := hs.ask id hw
      simp only [settleWithin]
      generalize w.poll s.host id = asked at hw' he
      obtain ⟨answer, w'⟩ := asked
      cases answer with
      | none => exact ⟨.waiting _, hw'⟩
      | some outcome =>
        cases outcome with
        | ok v => exact ih hw' v
        | error e => exact ⟨.failed (he e rfl), hw'⟩
    | _ => exact ⟨.settled rfl, hw⟩

/-- How a process that follows a discipline may come out of a poll. -/
inductive Progress.Follows (d : Discipline) : Progress → Prop where
  | finished {v : Value} (hv : d.value v) : Follows d (.finished v)
  | failed {e : EvalError} (he : d.error e) : Follows d (.failed e)
  | waiting {p : Process} (hp : p.Follows d) : Follows d (.waiting p)

theorem Progress.Follows.leaves {progress : Progress} {p : Process} (h : progress.Follows d) (hp : progress.Leaves p) :
    p.Follows d := by
  cases h with
  | finished hv =>
    cases hp
    exact .done hv
  | failed => cases hp
  | waiting hrest =>
    cases hp
    exact hrest

namespace Process
variable {p q : Process}

/-- One poll of a process that follows a discipline. -/
theorem Follows.poll (hs : s.Upholds d I) (hp : p.Follows d) (hw : I w) :
    (p.poll s w).1.Follows d ∧ I (p.poll s w).2 := by
  induction hp generalizing w with
  | done hv => exact ⟨.finished hv, hw⟩
  | fail he => exact ⟨.failed he, hw⟩
  | @settle v next hn ih =>
    simp only [Process.poll]
    obtain ⟨hanswer, hw'⟩ := World.follows_settleWithin hs hw (w.outcomes.size + 1) v
    generalize heq : w.settle s.host v = settled
    rw [World.settle] at heq
    rw [heq] at hanswer hw'
    obtain ⟨answer, w'⟩ := settled
    cases hanswer with
    | settled hv => exact ih _ hv hw'
    | failed he => exact ⟨.failed he, hw'⟩
    | waiting v => exact ⟨.waiting (.settle hn), hw'⟩
  | @read target key next _ ih =>
    simp only [Process.poll]
    cases hg : w.heap.getProperty target key with
    | ok v => exact ih v hw
    | error e => exact ⟨.failed (hs.read hg), hw⟩
  | @write target key value next _ _ ih =>
    simp only [Process.poll]
    cases hg : w.heap.setProperty target key value with
    | ok heap => exact ih (hs.change heap hw)
    | error e => exact ⟨.failed (hs.write hg), hw⟩
  | keyOf _ ih => exact ih _ hw
  | newArray _ _ ih => exact ih _ rfl (hs.change _ hw)
  | newObject _ _ ih => exact ih _ rfl (hs.change _ hw)
  | @call f receiver args next hr ha _ ih =>
    simp only [Process.poll]
    obtain ⟨hw', he⟩ := hs.call f receiver args hr ha hw
    generalize w.call s.host f receiver args = answer at hw' he
    obtain ⟨outcome, w'⟩ := answer
    cases outcome with
    | ok v => exact ih v hw'
    | error e => exact ⟨.failed (he e rfl), hw'⟩
  | @binary op a b next hop ha hb _ ih =>
    simp only [Process.poll]
    obtain ⟨hw', hv, he⟩ := hs.binary op a b hop ha hb hw
    generalize s.operators.applyBinary op a b w = answer at hw' hv he
    obtain ⟨outcome, w'⟩ := answer
    cases outcome with
    | ok v => exact ih v (hv v rfl) hw'
    | error e => exact ⟨.failed (he e rfl), hw'⟩
  | @unary op v next hop hv _ ih =>
    simp only [Process.poll]
    obtain ⟨hw', hu, he⟩ := hs.unary op v hop hv hw
    generalize s.operators.applyUnary op v w = answer at hw' hu he
    obtain ⟨outcome, w'⟩ := answer
    cases outcome with
    | ok u => exact ih u (hu u rfl) hw'
    | error e => exact ⟨.failed (he e rfl), hw'⟩
  | @join left right next hl hr hn ihl ihr ihn =>
    obtain ⟨hleft, hw₁⟩ := ihl hw
    cases hpl : left.poll s w with
    | mk l w₁ =>
    rw [hpl] at hleft hw₁
    obtain ⟨hright, hw₂⟩ := ihr hw₁
    cases hpr : right.poll s w₁ with
    | mk r w₂ =>
    rw [hpr] at hright hw₂
    cases poll_join next hpl hpr with
    | leftFailed e heq =>
      rw [heq]
      exact ⟨hleft, hw₁⟩
    | rightFailed e heq =>
      rw [heq]
      exact ⟨hright, hw₂⟩
    | goesOn a b heq =>
      cases hleft with
      | finished ha =>
      cases hright with
      | finished hb =>
      rw [heq]
      exact ihn a b ha hb hw₂
    | waits hrestl hrestr _ heq =>
      rw [heq]
      exact ⟨.waiting (.join (hleft.leaves hrestl) (hright.leaves hrestr) hn), hw₂⟩

/-- What may be left of a process after some polls. Between two polls, the world may become any other one in
which `I` holds. -/
inductive Remains (s : Setting σ) (I : World σ → Prop) (p : Process) : Process → Prop where
  | whole : Remains s I p p
  | poll {q rest : Process} {w w' : World σ} (hq : Remains s I p q) (hw : I w)
    (h : q.poll s w = (.waiting rest, w')) : Remains s I p rest

theorem Follows.remains (hs : s.Upholds d I) (hp : p.Follows d) (hq : p.Remains s I q) :
    q.Follows d := by
  induction hq with
  | whole => exact hp
  | poll _ hw h ih =>
    obtain ⟨hrest, -⟩ := ih.poll hs hw
    rw [h] at hrest
    cases hrest with
    | waiting hp => exact hp

/-- How a run ends, or where it stands, is how what is left of the process comes out of a poll. -/
theorem Follows.run (hs : s.Upholds d I) (tick : σ → σ)
    (htick : ∀ w, I w → I { w with host := tick w.host }) (hp : p.Follows d) (hq : p.Remains s I q)
    (hw : I w) (turns : Nat) :
    ∃ rest w', p.Remains s I rest ∧ I w' ∧ q.run s tick turns w = rest.poll s w' := by
  induction turns generalizing q w with
  | zero => exact ⟨q, w, hq, hw, rfl⟩
  | succ turns ih =>
    obtain ⟨-, hw'⟩ := (hp.remains hs hq).poll hs hw
    cases hpoll : q.poll s w with
    | mk answer w' =>
      rw [hpoll] at hw'
      cases answer with
      | waiting rest =>
        rw [run_succ_of_waiting hpoll]
        exact ih (hq.poll hw hpoll) (htick w' hw')
      | finished | failed => exact ⟨q, w, hq, hw, by simp only [Process.run, hpoll]⟩

/-- What polling a process comes to: the processes that it goes on with, and the worlds in which it does. -/
inductive Visits (s : Setting σ) : Process → World σ → Process → World σ → Prop where
  | here {p : Process} {w : World σ} : Visits s p w p w
  | settle {v u : Value} {next : Value → Process} {w w₁ w' : World σ} {q : Process}
    (h : w.settle s.host v = (.settled u, w₁)) (hq : Visits s (next u) w₁ q w') :
    Visits s (.settle v next) w q w'
  | read {target v : Value} {key : String} {next : Value → Process} {w w' : World σ} {q : Process}
    (h : w.heap.getProperty target key = .ok v) (hq : Visits s (next v) w q w') :
    Visits s (.read target key next) w q w'
  | write {target value : Value} {key : String} {next : Process} {heap : Heap} {w w' : World σ}
    {q : Process} (h : w.heap.setProperty target key value = .ok heap)
    (hq : Visits s next { w with heap } q w') : Visits s (.write target key value next) w q w'
  | keyOf {v : Value} {next : String → Process} {w w' : World σ} {q : Process}
    (hq : Visits s (next (w.heap.propertyKey v)) w q w') : Visits s (.keyOf v next) w q w'
  | newArray {elements : List Value} {next : Value → Process} {w w' : World σ} {q : Process}
    (hq : Visits s (next (w.heap.newArray elements.toArray).1)
      { w with heap := (w.heap.newArray elements.toArray).2 } q w') :
    Visits s (.newArray elements next) w q w'
  | newObject {fields : Fields} {next : Value → Process} {w w' : World σ} {q : Process}
    (hq : Visits s (next (w.heap.newObject fields).1)
      { w with heap := (w.heap.newObject fields).2 } q w') : Visits s (.newObject fields next) w q w'
  | call {f : Callable} {receiver v : Value} {args : List Value} {next : Value → Process}
    {w w₁ w' : World σ} {q : Process} (h : w.call s.host f receiver args = (.ok v, w₁))
    (hq : Visits s (next v) w₁ q w') : Visits s (.call f receiver args next) w q w'
  | binary {op : BinaryOp} {a b v : Value} {next : Value → Process} {w w₁ w' : World σ} {q : Process}
    (h : s.operators.applyBinary op a b w = (.ok v, w₁)) (hq : Visits s (next v) w₁ q w') :
    Visits s (.binary op a b next) w q w'
  | unary {op : UnaryOp} {a v : Value} {next : Value → Process} {w w₁ w' : World σ} {q : Process}
    (h : s.operators.applyUnary op a w = (.ok v, w₁)) (hq : Visits s (next v) w₁ q w') :
    Visits s (.unary op a next) w q w'
  | left {left right : Process} {next : Value → Value → Process} {w w' : World σ} {q : Process}
    (hq : Visits s left w q w') : Visits s (.join left right next) w q w'
  | right {left right : Process} {next : Value → Value → Process} {answer : Progress}
    {w w₁ w' : World σ} {q : Process} (h : left.poll s w = (answer, w₁))
    (hgoes : ∀ e, answer ≠ .failed e) (hq : Visits s right w₁ q w') :
    Visits s (.join left right next) w q w'
  | joined {left right : Process} {next : Value → Value → Process} {a b : Value}
    {w w₁ w₂ w' : World σ} {q : Process} (hl : left.poll s w = (.finished a, w₁))
    (hr : right.poll s w₁ = (.finished b, w₂)) (hq : Visits s (next a b) w₂ q w') :
    Visits s (.join left right next) w q w'

/-- Whatever polling a process comes to follows the discipline that the process does. -/
theorem Follows.visits (hs : s.Upholds d I) (hp : p.Follows d) (hw : I w) {w' : World σ}
    (hq : p.Visits s w q w') : q.Follows d ∧ I w' := by
  induction hq with
  | here => exact ⟨hp, hw⟩
  | @settle v u next w w₁ _ _ h _ ih =>
    obtain ⟨hanswer, hw'⟩ := World.follows_settleWithin hs hw (w.outcomes.size + 1) v
    rw [World.settle] at h
    rw [h] at hanswer hw'
    cases hanswer with
    | settled hv => cases hp with | settle hn => exact ih (hn u hv) hw'
  | read _ _ ih => cases hp with | read hn => exact ih (hn _) hw
  | write _ _ ih => cases hp with | write _ hn => exact ih hn (hs.change _ hw)
  | keyOf _ ih => cases hp with | keyOf hn => exact ih (hn _) hw
  | newArray _ ih => cases hp with | newArray _ hn => exact ih (hn _ rfl) (hs.change _ hw)
  | newObject _ ih => cases hp with | newObject _ hn => exact ih (hn _ rfl) (hs.change _ hw)
  | call h _ ih =>
    cases hp with
    | call hr ha hn =>
      obtain ⟨hw', -⟩ := hs.call _ _ _ hr ha hw
      rw [h] at hw'
      exact ih (hn _) hw'
  | binary h _ ih =>
    cases hp with
    | binary hop ha hb hn =>
      obtain ⟨hw', hv, -⟩ := hs.binary _ _ _ hop ha hb hw
      rw [h] at hw' hv
      exact ih (hn _ (hv _ rfl)) hw'
  | unary h _ ih =>
    cases hp with
    | unary hop hv hn =>
      obtain ⟨hw', hu, -⟩ := hs.unary _ _ hop hv hw
      rw [h] at hw' hu
      exact ih (hn _ (hu _ rfl)) hw'
  | left _ ih => cases hp with | join hl _ _ => exact ih hl hw
  | right h _ _ ih =>
    cases hp with
    | join hl hr _ =>
      obtain ⟨-, hw'⟩ := hl.poll hs hw
      rw [h] at hw'
      exact ih hr hw'
  | joined hl hr _ ih =>
    cases hp with
    | join hpl hpr hn =>
      obtain ⟨ha, hw₁⟩ := hpl.poll hs hw
      rw [hl] at ha hw₁
      obtain ⟨hb, hw₂⟩ := hpr.poll hs hw₁
      rw [hr] at hb hw₂
      cases ha with
      | finished ha => cases hb with | finished hb => exact ih (hn _ _ ha hb) hw₂

end Process

end Setting

end LatentExpr
