import LatentExpr.Proofs.Eval.Direct
import LatentExpr.Proofs.Eval.Parallel

/-!
Evaluation where nothing is pending. If nothing pending can be reached from the receiver and the environment,
and if the functions and configured operators of the host bring nothing pending about, then the first poll
of an expression ends, and it does what the plain evaluator does (`invoke_direct`).

A host may hold values of its own; `held` says which, and nothing pending can be reached from them either.
A process `Performs` a plain computation from a world on if polling it runs the computation and goes on
with its result. Computations are put together by `Performs.bind`, and the two sides of a join by
`Performs.join`: a left side that ends at once comes before the right one.
-/
namespace LatentExpr

namespace World
variable {σ : Type} {held : σ → Set Value} {w w' w'' : World σ}

/-- Nothing pending can be reached from the values that the host holds. -/
def Unpending (held : σ → Set Value) (w : World σ) : Prop := ∀ v ∈ held w.host, w.heap.Available v

/-- From one world to another nothing became pending. -/
structure Keeps (held : σ → Set Value) (w w' : World σ) : Prop where
  available : ∀ {v}, w.heap.Available v → w'.heap.Available v
  unpending : w'.Unpending held

/-- An answer is available, and nothing became pending on the way to it. -/
structure Answers (held : σ → Set Value) (w : World σ) (answer : Outcome × World σ) : Prop where
  keeps : w.Keeps held answer.2
  available : ∀ v, answer.1 = .ok v → answer.2.heap.Available v

/-- Nothing pending can be reached from the receiver, the environment and the host. -/
structure Clear (held : σ → Set Value) (scope : Scope) (w : World σ) : Prop where
  receiver : w.heap.Available scope.receiver
  environment : w.heap.Available scope.environment
  unpending : w.Unpending held

theorem Keeps.refl (hw : w.Unpending held) : w.Keeps held w := ⟨id, hw⟩

theorem Keeps.trans (h : w.Keeps held w') (h' : w'.Keeps held w'') : w.Keeps held w'' :=
  ⟨fun hv => h'.available (h.available hv), h'.unpending⟩

theorem Clear.keeps {scope : Scope} (hw : w.Clear held scope) (h : w.Keeps held w') :
    w'.Clear held scope :=
  ⟨h.available hw.receiver, h.available hw.environment, h.unpending⟩

/-- A change of the heap after which everything is available that was. -/
theorem Keeps.ofHeap (hw : w.Unpending held) {heap : Heap}
    (hh : ∀ v, w.heap.Available v → heap.Available v) : w.Keeps held { w with heap } :=
  ⟨fun hv => hh _ hv, fun v hv => hh v (hw v hv)⟩

end World

/-- Functions of the host and configured operators that are given available values answer with such values
and make nothing pending. -/
structure Setting.Prompt {σ : Type} (held : σ → Set Value) (s : Setting σ) : Prop where
  call : ∀ id receiver args (w : World σ), w.Unpending held → w.heap.Available receiver →
    (∀ a ∈ args, w.heap.Available a) → w.Answers held (s.host.call id receiver args w)
  binary : ∀ e ∈ s.operators.binary, ∀ a b (w : World σ), w.Unpending held → w.heap.Available a →
    w.heap.Available b → w.Answers held (e.2 a b w)
  unary : ∀ e ∈ s.operators.unary, ∀ v (w : World σ), w.Unpending held → w.heap.Available v →
    w.Answers held (e.2 v w)

namespace Setting.Prompt
variable {σ : Type} {held : σ → Set Value} {s : Setting σ} {w : World σ}

theorem answers_call (hs : s.Prompt held) (hw : w.Unpending held) {receiver : Value}
    {args : List Value} (hr : w.heap.Available receiver) (ha : ∀ a ∈ args, w.heap.Available a)
    (f : Callable) : w.Answers held (w.call s.host f receiver args) := by
  cases f with
  | arrayMethod m =>
    obtain ⟨hkeeps, hvalue⟩ := Heap.Available.callArrayMethod m hr ha
    exact ⟨.ofHeap hw hkeeps, hvalue⟩
  | stringMethod m =>
    refine ⟨.refl hw, fun v hv => ?_⟩
    exact w.heap.available_of_isPlain (Heap.isPlain_of_callStringMethod hv)
  | host id => exact hs.call id receiver args w hw hr ha

theorem answers_binary (hs : s.Prompt held) (hw : w.Unpending held) {a b : Value}
    (ha : w.heap.Available a) (hb : w.heap.Available b) (op : BinaryOp) :
    w.Answers held (s.operators.applyBinary op a b w) := by
  unfold Operators.applyBinary
  split
  · rename_i meaning hm
    obtain ⟨before, after, heq, -⟩ := List.lookup_eq_some_iff.1 hm
    exact hs.binary (op.symbol, meaning) (by simp [heq]) a b w hw ha hb
  · refine ⟨.refl hw, fun v hv => ?_⟩
    exact w.heap.available_of_isPlain (op.isPlain_apply _ _ _ hv)

theorem answers_unary (hs : s.Prompt held) (hw : w.Unpending held) {v : Value}
    (hv : w.heap.Available v) (op : UnaryOp) :
    w.Answers held (s.operators.applyUnary op v w) := by
  unfold Operators.applyUnary
  split
  · rename_i meaning hm
    obtain ⟨before, after, heq, -⟩ := List.lookup_eq_some_iff.1 hm
    exact hs.unary (op.symbol, meaning) (by simp [heq]) v w hw hv
  · refine ⟨.refl hw, fun v hv => ?_⟩
    exact w.heap.available_of_isPlain (op.isPlain_apply _ _ hv)

end Setting.Prompt

/-! ### Performing a plain computation -/

namespace Process
variable {σ α β : Type}

/-- From `r` on, polling the process `p` runs the plain computation `x` and goes on with its result,
which has the property `good`. Nothing becomes pending. -/
structure Performs (s : Setting σ) (held : σ → Set Value) (good : Heap → α → Prop) (r : Recorded σ)
    (p : (α → Process) → Process) (x : Direct σ α) : Prop where
  keeps : r.world.Keeps held (x r).2.world
  good : ∀ a, (x r).1 = .ok a → good (x r).2.world.heap a
  observe : ∀ next, (p next).observe s r = goOn s next (x r)

namespace Performs
variable {s : Setting σ} {held : σ → Set Value} {good : Heap → α → Prop}
  {good' : Heap → β → Prop} {r : Recorded σ}

theorem pure (hr : r.world.Unpending held) {a : α} (ha : good r.world.heap a) :
    Performs s held good r (fun next => next a) (Pure.pure a) where
  keeps := .refl hr
  good b hb := by
    cases hb
    exact ha
  observe _ := rfl

theorem throw (hr : r.world.Unpending held) (e : EvalError) :
    Performs s held good r (fun _ => .fail e) (throw e) where
  keeps := .refl hr
  good _ ha := by cases ha
  observe _ := rfl

/-- One after the other. -/
theorem bind {p : (α → Process) → Process} {q : α → (β → Process) → Process} {x : Direct σ α}
    {f : α → Direct σ β} (hp : Performs s held good r p x)
    (hq : ∀ a r', r.world.Keeps held r'.world → good r'.world.heap a →
      Performs s held good' r' (q a) (f a)) :
    Performs s held good' r (fun next => p fun a => q a next) (x >>= f) := by
  obtain ⟨hkeeps, hgood, hobserve⟩ := hp
  cases hx : x r with
  | mk outcome r' =>
  rw [hx] at hkeeps hgood
  cases outcome with
  | error e =>
    have happly : (x >>= f) r = (.error e, r') := by rw [Direct.bind_apply, hx]
    refine ⟨by rw [happly]; exact hkeeps, fun b hb => ?_, fun next => ?_⟩
    · rw [happly] at hb
      cases hb
    · rw [hobserve, happly, hx]
      rfl
  | ok a =>
    have happly : (x >>= f) r = f a r' := by rw [Direct.bind_apply, hx]
    obtain ⟨hkeeps', hgood', hobserve'⟩ := hq a r' hkeeps (hgood a rfl)
    refine ⟨?_, fun b hb => ?_, fun next => ?_⟩
    · rw [happly]
      exact hkeeps.trans hkeeps'
    · rw [happly] at hb ⊢
      exact hgood' b hb
    · rw [hobserve, happly, hx]
      exact hobserve' next

/-- Two sides of a join that both end at once do so one after the other. -/
theorem join {p q : (Value → Process) → Process} {k : Value → Value → (β → Process) → Process}
    {x y : Direct σ Value} {f : Value → Value → Direct σ β}
    (hp : Performs s held Heap.Available r p x)
    (hq : ∀ r', r.world.Keeps held r'.world → Performs s held Heap.Available r' q y)
    (hk : ∀ a b r', r.world.Keeps held r'.world → r'.world.heap.Available a →
      r'.world.heap.Available b → Performs s held good' r' (k a b) (f a b)) :
    Performs s held good' r (fun next => .join (p .done) (q .done) fun a b => k a b next)
      (x >>= fun a => y >>= fun b => f a b) := by
  have hsequence : Performs s held good' r (fun next => p fun a => q fun b => k a b next)
      (x >>= fun a => y >>= fun b => f a b) :=
    hp.bind fun a r' hkeeps ha => (hq r' hkeeps).bind fun b r'' hkeeps' hb =>
      hk a b r'' (hkeeps.trans hkeeps') (hkeeps'.available ha) hb
  refine ⟨hsequence.keeps, hsequence.good, fun next => ?_⟩
  rw [← hsequence.observe, hp.observe]
  simp only [Process.observe, hp.observe]
  have hkeeps := hp.keeps
  cases hx : x r with
  | mk outcome r' =>
  rw [hx] at hkeeps
  cases outcome with
  | error e => rfl
  | ok a =>
    simp only [goOn, (hq r' hkeeps).observe, Process.observe]
    cases hy : y r' with
    | mk outcome r'' => cases outcome <;> rfl

/-- Waiting for a value that is available is over at once. -/
theorem settling {q : Value → (α → Process) → Process} {x : Direct σ α} {v : Value}
    (hv : r.world.heap.Available v) (hq : Performs s held good r (q v) x) :
    Performs s held good r (fun next => .settle v fun v => q v next) x where
  keeps := hq.keeps
  good := hq.good
  observe next := by
    simp only [Process.observe, World.settle_of_not_pending _ _ hv.isPending]
    exact hq.observe next

theorem settle (hr : r.world.Unpending held) {v : Value} (hv : r.world.heap.Available v) :
    Performs s held Heap.Available r (.settle v) (Pure.pure v) :=
  settling (q := fun v next => next v) hv (.pure hr hv)

theorem read (hr : r.world.Unpending held) {target : Value} {key : String}
    (ht : r.world.heap.Available target) :
    Performs s held Heap.Available r (.read target key) (Direct.read target key) where
  keeps := .refl hr
  good _ ha := ht.getProperty ha
  observe next := observe_read s target key next r

theorem write (hr : r.world.Unpending held) {target value : Value} {key : String}
    (hv : r.world.heap.Available value) :
    Performs s held (fun _ _ => True) r (fun next => .write target key value (next ()))
      (Direct.write target key value) := by
  cases hset : r.world.heap.setProperty target key value with
  | error e =>
    have hwrite : Direct.write target key value r = (.error e, r) := by simp only [Direct.write, hset]
    refine ⟨?_, fun _ _ => trivial, fun next => ?_⟩
    · rw [hwrite]
      exact .refl hr
    · simp only [Process.observe, hset, hwrite, goOn]
  | ok heap =>
    have hwrite : Direct.write target key value r =
        (.ok (), ⟨{ r.world with heap }, r.events ++ [.wrote target key value]⟩) := by
      simp only [Direct.write, hset]
    refine ⟨?_, fun _ _ => trivial, fun next => ?_⟩
    · rw [hwrite]
      exact .ofHeap hr fun u hu => hv.setProperty hset hu
    · simp only [Process.observe, hset, hwrite, goOn]

theorem keyOf (hr : r.world.Unpending held) (v : Value) :
    Performs s held (fun _ _ => True) r (.keyOf v) (Direct.keyOf v) :=
  ⟨.refl hr, fun _ _ => trivial, fun _ => rfl⟩

theorem newArray (hr : r.world.Unpending held) {elements : List Value}
    (he : ∀ v ∈ elements, r.world.heap.Available v) :
    Performs s held Heap.Available r (.newArray elements) (Direct.newArray elements) := by
  have helements : ∀ v ∈ elements.toArray, r.world.heap.Available v :=
    fun v hv => he v (List.mem_toArray.1 hv)
  refine ⟨.ofHeap hr fun v hv => hv.newArray helements, fun v hv => ?_, fun _ => rfl⟩
  cases hv
  exact Heap.available_newArray helements

theorem newObject (hr : r.world.Unpending held) {fields : Fields}
    (hf : ∀ f ∈ fields, r.world.heap.Available f.2) :
    Performs s held Heap.Available r (.newObject fields) (Direct.newObject fields) := by
  refine ⟨.ofHeap hr fun v hv => hv.newObject hf, fun v hv => ?_, fun _ => rfl⟩
  cases hv
  exact Heap.available_newObject hf

theorem binary (hs : s.Prompt held) (hr : r.world.Unpending held) {a b : Value}
    (ha : r.world.heap.Available a) (hb : r.world.heap.Available b) (op : BinaryOp) :
    Performs s held Heap.Available r (.binary op a b) (Direct.binary s op a b) := by
  obtain ⟨hkeeps, hvalue⟩ := hs.answers_binary hr ha hb op
  exact ⟨hkeeps, hvalue, fun next => observe_binary s op a b next r⟩

theorem unary (hs : s.Prompt held) (hr : r.world.Unpending held) {v : Value}
    (hv : r.world.heap.Available v) (op : UnaryOp) :
    Performs s held Heap.Available r (.unary op v) (Direct.unary s op v) := by
  obtain ⟨hkeeps, hvalue⟩ := hs.answers_unary hr hv op
  exact ⟨hkeeps, hvalue, fun next => observe_unary s op v next r⟩

theorem readSettled (hr : r.world.Unpending held) {target : Value} {key : String}
    (ht : r.world.heap.Available target) :
    Performs s held Heap.Available r (Process.readSettled target key) (Direct.read target key) := by
  rw [← bind_pure (Direct.read target key)]
  exact (read hr ht).bind fun v r' hkeeps hv => settle hkeeps.unpending hv

theorem callSettled (hs : s.Prompt held) (hr : r.world.Unpending held) (callee : Expr)
    {f receiver : Value} {args : List Value} (hreceiver : r.world.heap.Available receiver)
    (ha : ∀ a ∈ args, r.world.heap.Available a) :
    Performs s held Heap.Available r (Process.callSettled callee f receiver args)
      (Direct.call s callee f receiver args) := by
  cases f with
  | function f =>
    obtain ⟨hkeeps, hvalue⟩ := hs.answers_call hr hreceiver ha f
    refine ⟨hkeeps, hvalue, fun next => ?_⟩
    simp only [Process.callSettled, observe_call, Direct.call]
    generalize r.world.call s.host f receiver args = answer at hvalue
    obtain ⟨outcome, w⟩ := answer
    cases outcome with
    | error e => rfl
    | ok v =>
      have hv : v.isPending = false := (hvalue v rfl).isPending
      simp only [goOn, Process.observe, World.settle_of_not_pending _ _ hv]
  | _ => exact throw hr _

end Performs

end Process

/-! ### Expressions -/

section Eval
variable {σ : Type} {s : Setting σ} {held : σ → Set Value} {scope : Scope}

open Process

/-- Arguments are evaluated when what is called and its receiver are known. -/
theorem performs_arguments (hs : s.Prompt held) {r : Recorded σ} {callee : Expr} {args : List Expr}
    {f receiver : Value} (hreceiver : r.world.heap.Available receiver)
    (ha : Performs s held (fun h vs => ∀ v ∈ vs, h.Available v) r (evalAll scope args)
      (directAll s scope args)) :
    Performs s held Heap.Available r
      (fun next => evalAll scope args fun vs => .callSettled callee f receiver vs next)
      (directAll s scope args >>= fun vs => Direct.call s callee f receiver vs) :=
  ha.bind fun _ _ hkeeps hvs =>
    .callSettled hs hkeeps.unpending callee (hkeeps.available hreceiver) hvs

/-- What is no member is called with the receiver of the scope. -/
theorem performs_callee (hs : s.Prompt held) {r : Recorded σ} (hr : r.world.Clear held scope)
    {callee : Expr} {args : List Expr}
    (hc : Performs s held Heap.Available r (callee.eval scope) (callee.direct s scope))
    (ha : ∀ r', r.world.Keeps held r'.world →
      Performs s held (fun h vs => ∀ v ∈ vs, h.Available v) r' (evalAll scope args)
        (directAll s scope args)) :
    Performs s held Heap.Available r
      (fun next => callee.eval scope fun f => .settle scope.receiver fun receiver =>
        evalAll scope args fun vs => .callSettled callee f receiver vs next)
      (callee.direct s scope >>= fun f => directAll s scope args >>= fun vs =>
        Direct.call s callee f scope.receiver vs) := by
  refine hc.bind fun f r' hkeeps _ => ?_
  have hreceiver := hkeeps.available hr.receiver
  exact .settling hreceiver (performs_arguments hs hreceiver (ha r' hkeeps))

mutual

/-- The process of an expression performs what the plain evaluator does. -/
theorem Expr.performs (hs : s.Prompt held) {r : Recorded σ} (hr : r.world.Clear held scope)
    (e : Expr) : Performs s held Heap.Available r (e.eval scope) (e.direct s scope) := by
  cases e with
  | identifier name => exact .readSettled hr.unpending hr.environment
  | receiver => exact .settle hr.unpending hr.receiver
  | constant kind text =>
    exact .pure hr.unpending (Heap.available_of_isPlain _ (isPlain_constant kind text))
  | literal l => exact .pure hr.unpending (Heap.available_of_isPlain _ (isPlain_literal l))
  | array elements =>
    exact (performs_all hs hr elements).bind fun vs r' hkeeps hvs => .newArray hkeeps.unpending hvs
  | object properties =>
    exact (performs_properties hs hr properties).bind fun entries r' hkeeps hentries =>
      .newObject hkeeps.unpending (Fields.forall_ofEntries hentries)
  | member object name =>
    exact (Expr.performs hs hr object).bind fun target r' hkeeps ht => .readSettled hkeeps.unpending ht
  | index object key =>
    refine (Expr.performs hs hr object).bind fun target r' hkeeps ht => ?_
    refine (Expr.performs hs (hr.keeps hkeeps) key).bind fun k r'' hkeeps' _ => ?_
    exact (Performs.keyOf hkeeps'.unpending k).bind fun key r₃ hkeeps₃ _ =>
      .readSettled hkeeps₃.unpending (hkeeps₃.available (hkeeps'.available ht))
  | call callee args =>
    have hargs : ∀ r' : Recorded σ, r.world.Keeps held r'.world →
        Performs s held (fun h vs => ∀ v ∈ vs, h.Available v) r' (evalAll scope args)
          (directAll s scope args) :=
      fun r' hkeeps => performs_all hs (hr.keeps hkeeps) args
    cases callee with
    | member object name =>
      refine (Expr.performs hs hr object).bind fun target r' hkeeps ht => ?_
      refine (Performs.readSettled hkeeps.unpending ht).bind fun f r'' hkeeps' _ => ?_
      exact performs_arguments hs (hkeeps'.available ht) (hargs r'' (hkeeps.trans hkeeps'))
    | index object key =>
      refine (Expr.performs hs hr object).bind fun target r' hkeeps ht => ?_
      refine (Expr.performs hs (hr.keeps hkeeps) key).bind fun k r₂ hkeeps₂ _ => ?_
      refine (Performs.keyOf hkeeps₂.unpending k).bind fun key r₃ hkeeps₃ _ => ?_
      have ht := hkeeps₃.available (hkeeps₂.available ht)
      refine (Performs.readSettled hkeeps₃.unpending ht).bind fun f r₄ hkeeps₄ _ => ?_
      exact performs_arguments hs (hkeeps₄.available ht)
        (hargs r₄ (hkeeps.trans (hkeeps₂.trans (hkeeps₃.trans hkeeps₄))))
    | _ => exact performs_callee hs hr (Expr.performs hs hr _) hargs
  | assign target value =>
    exact (Expr.performs hs hr value).bind fun v r' hkeeps hv =>
      Expr.performs_store hs (hr.keeps hkeeps) hv target
  | comma items =>
    exact performs_last hs hr (Heap.available_of_isPlain _ rfl) items
  | ternary test consequent alternate =>
    refine (Expr.performs hs hr test).bind fun v r' hkeeps _ => ?_
    cases v.truthy with
    | true => exact Expr.performs hs (hr.keeps hkeeps) consequent
    | false => exact Expr.performs hs (hr.keeps hkeeps) alternate
  | logical op left right =>
    cases op with
    | and =>
      refine (Expr.performs hs hr left).bind fun v r' hkeeps hv => ?_
      cases v.truthy with
      | true => exact Expr.performs hs (hr.keeps hkeeps) right
      | false => exact .pure hkeeps.unpending hv
    | or =>
      refine (Expr.performs hs hr left).bind fun v r' hkeeps hv => ?_
      cases v.truthy with
      | true => exact .pure hkeeps.unpending hv
      | false => exact Expr.performs hs (hr.keeps hkeeps) right
  | binary level op left right =>
    exact (Expr.performs hs hr left).join (fun r' hkeeps => Expr.performs hs (hr.keeps hkeeps) right)
      fun a b r' hkeeps ha hb => .binary hs hkeeps.unpending ha hb op
  | unary op operand =>
    exact (Expr.performs hs hr operand).bind fun v r' hkeeps hv => .unary hs hkeeps.unpending hv op

theorem Expr.performs_store (hs : s.Prompt held) {r : Recorded σ} (hr : r.world.Clear held scope)
    {v : Value} (hv : r.world.heap.Available v) (target : Expr) :
    Performs s held Heap.Available r (target.store scope v) (target.directStore s scope v) := by
  cases target with
  | identifier name =>
    refine .settling (q := fun v next => .write scope.environment name v (next v)) hv ?_
    exact (Performs.write hr.unpending hv).bind fun _ r' hkeeps _ =>
      .pure hkeeps.unpending (hkeeps.available hv)
  | member object name =>
    refine .settling (q := fun v next => object.eval scope fun target =>
      .write target name v (next v)) hv ?_
    refine (Expr.performs hs hr object).bind fun target r' hkeeps _ => ?_
    have hv := hkeeps.available hv
    exact (Performs.write hkeeps.unpending hv).bind fun _ r'' hkeeps' _ =>
      .pure hkeeps'.unpending (hkeeps'.available hv)
  | index object key =>
    refine .settling (q := fun v next => object.eval scope fun target => key.eval scope fun k =>
      .keyOf k fun key => .write target key v (next v)) hv ?_
    refine (Expr.performs hs hr object).bind fun target r' hkeeps _ => ?_
    refine (Expr.performs hs (hr.keeps hkeeps) key).bind fun k r₂ hkeeps₂ _ => ?_
    refine (Performs.keyOf hkeeps₂.unpending k).bind fun key r₃ hkeeps₃ _ => ?_
    have hv := hkeeps₃.available (hkeeps₂.available (hkeeps.available hv))
    exact (Performs.write hkeeps₃.unpending hv).bind fun _ r₄ hkeeps₄ _ =>
      .pure hkeeps₄.unpending (hkeeps₄.available hv)
  | _ => exact .settling (q := fun _ _ => .fail _) hv (.throw hr.unpending _)

theorem performs_all (hs : s.Prompt held) {r : Recorded σ} (hr : r.world.Clear held scope)
    (es : List Expr) :
    Performs s held (fun h vs => ∀ v ∈ vs, h.Available v) r (evalAll scope es) (directAll s scope es) := by
  cases es with
  | nil => exact .pure hr.unpending (by simp)
  | cons e rest =>
    refine (Expr.performs hs hr e).bind fun v r' hkeeps hv => ?_
    refine (performs_all hs (hr.keeps hkeeps) rest).bind fun vs r'' hkeeps' hvs => ?_
    exact .pure hkeeps'.unpending (List.forall_mem_cons.2 ⟨hkeeps'.available hv, hvs⟩)

theorem performs_last (hs : s.Prompt held) {r : Recorded σ} (hr : r.world.Clear held scope)
    {last : Value} (hlast : r.world.heap.Available last) (es : List Expr) :
    Performs s held Heap.Available r (evalLast scope last es) (directLast s scope last es) := by
  cases es with
  | nil => exact .pure hr.unpending hlast
  | cons e rest =>
    exact (Expr.performs hs hr e).bind fun v r' hkeeps hv =>
      performs_last hs (hr.keeps hkeeps) hv rest

theorem Property.performs (hs : s.Prompt held) {r : Recorded σ} (hr : r.world.Clear held scope)
    (p : Property) :
    Performs s held (fun h entry => h.Available entry.2) r (p.eval scope) (p.direct s scope) := by
  cases p with
  | named name value =>
    exact (Expr.performs hs hr value).bind fun v r' hkeeps hv => .pure hkeeps.unpending hv
  | constant kind text value =>
    refine (Expr.performs hs hr value).bind fun v r' hkeeps hv => ?_
    exact (Performs.keyOf hkeeps.unpending _).bind fun key r'' hkeeps' _ =>
      .pure hkeeps'.unpending (hkeeps'.available hv)
  | computed key value =>
    refine (Expr.performs hs hr value).bind fun v r' hkeeps hv => ?_
    refine (Expr.performs hs (hr.keeps hkeeps) key).bind fun k r'' hkeeps' _ => ?_
    exact (Performs.keyOf hkeeps'.unpending k).bind fun key r₃ hkeeps₃ _ =>
      .pure hkeeps₃.unpending (hkeeps₃.available (hkeeps'.available hv))

theorem performs_properties (hs : s.Prompt held) {r : Recorded σ} (hr : r.world.Clear held scope)
    (ps : List Property) :
    Performs s held (fun h entries => ∀ e ∈ entries, h.Available e.2) r
      (evalProperties scope ps) (directProperties s scope ps) := by
  cases ps with
  | nil => exact .pure hr.unpending (by simp)
  | cons p rest =>
    refine (Property.performs hs hr p).bind fun entry r' hkeeps he => ?_
    refine (performs_properties hs (hr.keeps hkeeps) rest).bind fun entries r'' hkeeps' hes => ?_
    exact .pure hkeeps'.unpending (List.forall_mem_cons.2 ⟨hkeeps'.available he, hes⟩)

end

end Eval

/-- Where nothing is pending, the first poll of an expression ends as the plain evaluator does: with the same
value, which is not pending, or the same failure, after the same calls and writes and in the same world.
Awaiting the evaluation ends the same way. -/
theorem Expr.invoke_direct {σ : Type} {s : Setting σ} {held : σ → Set Value} (hs : s.Prompt held)
    {scope : Scope} {w : World σ} (hw : w.Clear held scope) (e : Expr) :
    ∃ (outcome : Outcome) (r : Recorded σ), e.direct s scope (.start w) = (outcome, r) ∧
      (e.eval scope .done).observe s (.start w) = (.ofOutcome outcome, r) ∧
      e.invoke s scope w = (.ofOutcome outcome, r.world) ∧
      (∀ v, outcome = .ok v → v.isPending = false) ∧
      ∀ tick turns, (e.eval scope .done).watch s tick turns (.start w) = (.ofOutcome outcome, r) ∧
        (e.eval scope .done).run s tick turns w = e.invoke s scope w := by
  obtain ⟨hkeeps, hgood, hobserve⟩ := e.performs hs (r := .start w) hw
  have hobserve := hobserve .done
  cases hdirect : e.direct s scope (.start w) with
  | mk outcome r =>
  rw [hdirect] at hgood hobserve
  have hobserve : (e.eval scope .done).observe s (.start w) = (.ofOutcome outcome, r) := by
    rw [hobserve]
    cases outcome <;> rfl
  have hinvoke : e.invoke s scope w = (.ofOutcome outcome, r.world) :=
    Process.poll_of_observe hobserve
  have hover : (Progress.ofOutcome outcome).isWaiting = false := by cases outcome <;> rfl
  refine ⟨outcome, r, rfl, hobserve, hinvoke, fun v hv => (hgood v hv).isPending, fun tick turns => ?_⟩
  have hfirst : (e.eval scope .done).watch s tick 0 (.start w) = (.ofOutcome outcome, r) := hobserve
  have hwatch := Process.watch_of_le hfirst hover turns.zero_le
  rw [hinvoke]
  exact ⟨hwatch, Process.run_of_watch hwatch⟩

/-! ### A counting function -/

/-- A host with one function, which returns how often it was called before. The operator that is configured
gives its right operand. -/
def counting : Setting Nat where
  host := ⟨fun _ _ _ w => (.ok (.ofNat w.host), { w with host := w.host + 1 }), fun _ w => (none, w)⟩
  operators := ⟨[("**", fun _ b w => (.ok b, w))], []⟩

/-- The function `f` and an object `o` in the environment, which is the first object. The last one has a
pending field and cannot be reached. -/
def countingWorld : World Nat :=
  ⟨⟨#[], #[[("f", .function (.host 0)), ("o", .object 1)], [], [("p", .pending 0)]]⟩, #[none], 0⟩

/-- The source `f() ** (o.a = f())`. -/
def countingExpr : Expr :=
  .binary .multiplicative (.custom "**") (.call (.identifier "f") [])
    (.assign (.member (.identifier "o") "a") (.call (.identifier "f") []))

theorem prompt_counting : counting.Prompt fun _ => ∅ where
  call id receiver args w _ _ _ := by
    refine ⟨⟨fun hv => hv, by simp [World.Unpending]⟩, fun v hv => ?_⟩
    cases hv
    exact Heap.available_of_isPlain _ rfl
  binary e he a b w _ _ hb := by
    obtain rfl := List.mem_singleton.1 he
    refine ⟨⟨fun hv => hv, by simp [World.Unpending]⟩, fun v hv => ?_⟩
    cases hv
    exact hb
  unary e he := absurd he List.not_mem_nil

theorem available_countingWorld : countingWorld.heap.Available (.object 0) := by
  refine Heap.available_of_closed (P := fun v =>
    v ∈ [.object 0, .object 1, .function (.host 0)]) ?_ ?_ (by simp)
  · simp [Value.isPending]
  · intro v u hv hu
    cases hu with
    | element => simp at hv
    | @field i f hf =>
      have hi : i = 0 ∨ i = 1 := by simpa using hv
      rcases hi with rfl | rfl
      · have hf : f = ("f", .function (.host 0)) ∨ f = ("o", .object 1) := by
          simpa [countingWorld, Heap.fields] using hf
        rcases hf with rfl | rfl <;> simp
      · simp [countingWorld, Heap.fields] at hf

/-- The left call comes first, although both operands are joined. -/
theorem invoke_direct_counting :
    counting.Prompt (fun _ => ∅) ∧ countingWorld.Clear (fun _ => ∅) ⟨.undefined, .object 0⟩ ∧
      ∃ r : Recorded Nat, countingExpr.invoke counting ⟨.undefined, .object 0⟩ countingWorld =
          (.finished (.ofNat 1), r.world) ∧
        r.events = [.called (.host 0) .undefined [], .called (.host 0) .undefined [],
          .wrote (.object 1) "a" (.ofNat 1)] := by
  have hclear : countingWorld.Clear (fun _ => ∅) ⟨.undefined, .object 0⟩ :=
    ⟨Heap.available_of_isPlain _ rfl, available_countingWorld, by simp [World.Unpending]⟩
  obtain ⟨outcome, r, hdirect, -, hinvoke, -⟩ := Expr.invoke_direct prompt_counting hclear countingExpr
  obtain ⟨rfl, rfl⟩ := Prod.mk.inj hdirect
  exact ⟨prompt_counting, hclear, _, hinvoke, rfl⟩

end LatentExpr
