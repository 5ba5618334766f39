import LatentExpr.Proofs.Eval.Passive
import Mathlib.Order.Basic

/-!
Processes that do the same. Two processes are `Parallel` along a correspondence when they take the same
steps on corresponding values, and go on in parallel with what they get along every correspondence that
the first one has grown into by then. The processes of a passive expression in two scopes are parallel
when the scopes correspond, a receiver that is pending in the left one being what it turns out to be in
the right one.

The right process of a parallel pair waits for nothing: in a heap without pending values one poll ends
it.
-/
namespace LatentExpr

/-- Equal and plain, two arrays, or two objects. -/
inductive Value.Alike : Value → Value → Prop where
  | plain {v : Value} (hv : v.isPlain = true) : Alike v v
  | array (i j : Nat) : Alike (.array i) (.array j)
  | object (i j : Nat) : Alike (.object i) (.object j)

namespace Value.Alike
variable {v v' : Value}

theorem truthy_eq (h : v.Alike v') : v.truthy = v'.truthy := by
  cases h <;> rfl

theorem self (hv : v.isPending = false) : v.Alike v := by
  cases v <;> first | exact .array _ _ | exact .object _ _ | exact .plain rfl | cases hv

end Value.Alike

/-- A correspondence that relates plain values to themselves and containers to containers of the same
type. -/
structure Sensible (R : Correspondence) : Prop where
  plain : ∀ {v : Value}, v.isPlain = true → R v v
  alike : ∀ {v v' : Value}, R v v' → v.Alike v'

theorem Agrees.sensible {deliver : Nat → Value} {R : Correspondence} {h h' : Heap}
    (ha : Agrees deliver R h h') : Sensible R where
  plain := ha.plain
  alike hv := by
    cases ha.paired hv with
    | plain hp => exact .plain hp
    | array => exact .array _ _
    | object => exact .object _ _

/-- The left process does to values what the right one does to the values that they turn out to be, along
`R` and whatever `R` grows into. Neither writes or calls anything. -/
inductive Process.Parallel (deliver : Nat → Value) : Correspondence → Process → Process → Prop where
  | done {R : Correspondence} {v v' : Value} (hv : R v v') : Parallel deliver R (.done v) (.done v')
  | fail {R : Correspondence} (e e' : EvalError) : Parallel deliver R (.fail e) (.fail e')
  | settle {R : Correspondence} {v v' : Value} {next next' : Value → Process}
    (hv : Eventually deliver R v v')
    (hn : ∀ S, R ≤ S → Sensible S → ∀ u u', S u u' → Parallel deliver S (next u) (next' u')) :
    Parallel deliver R (.settle v next) (.settle v' next')
  | read {R : Correspondence} {target target' : Value} {key : String} {next next' : Value → Process}
    (ht : R target target')
    (hn : ∀ S, R ≤ S → Sensible S → ∀ x x', Eventually deliver S x x' →
      Parallel deliver S (next x) (next' x')) :
    Parallel deliver R (.read target key next) (.read target' key next')
  | keyOf {R : Correspondence} {v v' : Value} {next next' : String → Process} (hv : R v v')
    (hn : ∀ S, R ≤ S → Sensible S → ∀ key, Parallel deliver S (next key) (next' key)) :
    Parallel deliver R (.keyOf v next) (.keyOf v' next')
  | newArray {R : Correspondence} {es es' : List Value} {next next' : Value → Process}
    (he : List.Forall₂ R es es')
    (hn : ∀ S, R ≤ S → Sensible S → ∀ u u', S u u' → Parallel deliver S (next u) (next' u')) :
    Parallel deliver R (.newArray es next) (.newArray es' next')
  | newObject {R : Correspondence} {fs fs' : Fields} {next next' : Value → Process}
    (hf : FieldsMatch R fs fs')
    (hn : ∀ S, R ≤ S → Sensible S → ∀ u u', S u u' → Parallel deliver S (next u) (next' u')) :
    Parallel deliver R (.newObject fs next) (.newObject fs' next')
  | binary {R : Correspondence} {op : BinaryOp} {a a' b b' : Value} {next next' : Value → Process}
    (ha : R a a') (hb : R b b')
    (hn : ∀ S, R ≤ S → Sensible S → ∀ u u', S u u' → Parallel deliver S (next u) (next' u')) :
    Parallel deliver R (.binary op a b next) (.binary op a' b' next')
  | unary {R : Correspondence} {op : UnaryOp} {v v' : Value} {next next' : Value → Process}
    (hv : R v v')
    (hn : ∀ S, R ≤ S → Sensible S → ∀ u u', S u u' → Parallel deliver S (next u) (next' u')) :
    Parallel deliver R (.unary op v next) (.unary op v' next')
  | join {R : Correspondence} {l l' r r' : Process} {next next' : Value → Value → Process}
    (hl : Parallel deliver R l l') (hr : Parallel deliver R r r')
    (hn : ∀ S, R ≤ S → Sensible S → ∀ a a' b b', S a a' → S b b' →
      Parallel deliver S (next a b) (next' a' b')) :
    Parallel deliver R (.join l r next) (.join l' r' next')

/-- Continuations that are parallel on the values related by `rel S`, along every correspondence `S` that
`R` grows into. -/
def GoesOn {α : Type} (deliver : Nat → Value) (R : Correspondence)
    (rel : Correspondence → α → α → Prop) (next next' : α → Process) : Prop :=
  ∀ S, R ≤ S → Sensible S → ∀ x x', rel S x x' → (next x).Parallel deliver S (next' x')

theorem GoesOn.mono {α : Type} {deliver : Nat → Value} {R S : Correspondence}
    {rel : Correspondence → α → α → Prop} {next next' : α → Process}
    (h : GoesOn deliver R rel next next') (hRS : R ≤ S) : GoesOn deliver S rel next next' :=
  fun T hST hT => h T (le_trans hRS hST) hT

/-- What stands for what while an expression is evaluated in two scopes. -/
structure Scopes (deliver : Nat → Value) (R : Correspondence) (s s' : Scope) : Prop where
  sensible : Sensible R
  receiver : Eventually deliver R s.receiver s'.receiver
  environment : R s.environment s'.environment

theorem Scopes.mono {deliver : Nat → Value} {R S : Correspondence} {s s' : Scope}
    (h : Scopes deliver R s s') (hRS : R ≤ S) (hS : Sensible S) : Scopes deliver S s s' :=
  ⟨hS, h.receiver.mono hRS, hRS _ _ h.environment⟩

section Eval
variable {deliver : Nat → Value} {s s' : Scope}

theorem Process.Parallel.readSettled {R : Correspondence} {target target' : Value}
    {key : String} {next next' : Value → Process} (ht : R target target')
    (hn : GoesOn deliver R (fun S => S) next next') :
    (Process.readSettled target key next).Parallel deliver R
      (Process.readSettled target' key next') :=
  .read ht fun _ hRS _ _ _ hx => .settle hx (hn.mono hRS)

mutual

/-- The processes of a passive expression in corresponding scopes are parallel if they go on in
parallel. -/
theorem Expr.parallel_eval {R : Correspondence} (hs : Scopes deliver R s s') (e : Expr) (next next' : Value → Process)
    (he : e.isPassive = true) (hn : GoesOn deliver R (fun S => S) next next') :
    (e.eval s next).Parallel deliver R (e.eval s' next') := by
  cases e with
  | assign | call => cases he
  | identifier name => exact .readSettled hs.environment hn
  | receiver => exact .settle hs.receiver hn
  | constant kind text =>
    exact hn R le_rfl hs.sensible _ _ (hs.sensible.plain (isPlain_constant kind text))
  | literal l => exact hn R le_rfl hs.sensible _ _ (hs.sensible.plain (isPlain_literal l))
  | array elements =>
    exact parallel_evalAll hs elements _ _ he fun S hRS _ vs vs' hvs => .newArray hvs (hn.mono hRS)
  | object properties =>
    exact parallel_evalProperties hs properties _ _ he fun S hRS _ es es' hes =>
      .newObject (Agrees.ofEntries_match hes) (hn.mono hRS)
  | member object name =>
    exact Expr.parallel_eval hs object _ _ he fun S hRS _ x x' hx => .readSettled hx (hn.mono hRS)
  | index object key =>
    obtain ⟨ho, hk⟩ := Bool.and_eq_true_iff.1 he
    exact Expr.parallel_eval hs object _ _ ho fun S hRS hS target target' ht =>
      Expr.parallel_eval (hs.mono hRS hS) key _ _ hk fun T hST _ k k' hkk =>
        .keyOf hkk fun U hTU _ _ =>
          .readSettled (hTU _ _ (hST _ _ ht)) (hn.mono (le_trans hRS (le_trans hST hTU)))
  | comma items =>
    exact parallel_evalLast hs items .undefined .undefined next next' (hs.sensible.plain rfl) he hn
  | ternary test consequent alternate =>
    obtain ⟨htc, ha⟩ := Bool.and_eq_true_iff.1 he
    obtain ⟨ht, hc⟩ := Bool.and_eq_true_iff.1 htc
    refine Expr.parallel_eval hs test _ _ ht fun S hRS hS v v' hv => ?_
    have htruthy := (hS.alike hv).truthy_eq
    cases hb : v'.truthy with
    | true =>
      simp only [htruthy, hb]
      exact Expr.parallel_eval (hs.mono hRS hS) consequent _ _ hc (hn.mono hRS)
    | false =>
      simp only [htruthy, hb]
      exact Expr.parallel_eval (hs.mono hRS hS) alternate _ _ ha (hn.mono hRS)
  | logical op left right =>
    obtain ⟨hl, hr⟩ := Bool.and_eq_true_iff.1 he
    cases op
    all_goals
      refine Expr.parallel_eval hs left _ _ hl fun S hRS hS v v' hv => ?_
      have htruthy := (hS.alike hv).truthy_eq
      cases hb : v'.truthy
      all_goals
        simp only [htruthy, hb]
        first
        | exact hn S hRS hS v v' hv
        | exact Expr.parallel_eval (hs.mono hRS hS) right _ _ hr (hn.mono hRS)
  | binary level op left right =>
    obtain ⟨hl, hr⟩ := Bool.and_eq_true_iff.1 he
    refine .join ?_ ?_ fun S hRS _ a a' b b' ha hb => .binary ha hb (hn.mono hRS)
    · exact Expr.parallel_eval hs left _ _ hl fun _ _ _ _ _ hv => .done hv
    · exact Expr.parallel_eval hs right _ _ hr fun _ _ _ _ _ hv => .done hv
  | unary op operand =>
    exact Expr.parallel_eval hs operand _ _ he fun S hRS _ v v' hv => .unary hv (hn.mono hRS)

theorem parallel_evalAll {R : Correspondence} (hs : Scopes deliver R s s') (es : List Expr)
    (next next' : List Value → Process) (he : allPassive es = true)
    (hn : GoesOn deliver R List.Forall₂ next next') :
    (evalAll s es next).Parallel deliver R (evalAll s' es next') := by
  cases es with
  | nil => exact hn R le_rfl hs.sensible [] [] .nil
  | cons e rest =>
    obtain ⟨hfirst, hrest⟩ := Bool.and_eq_true_iff.1 he
    exact Expr.parallel_eval hs e _ _ hfirst fun S hRS hS v v' hv =>
      parallel_evalAll (hs.mono hRS hS) rest _ _ hrest fun T hST hT vs vs' hvs =>
        hn T (le_trans hRS hST) hT _ _ (.cons (hST _ _ hv) hvs)

theorem parallel_evalLast {R : Correspondence} (hs : Scopes deliver R s s') (es : List Expr) (last last' : Value)
    (next next' : Value → Process) (hlast : R last last') (he : allPassive es = true)
    (hn : GoesOn deliver R (fun S => S) next next') :
    (evalLast s last es next).Parallel deliver R (evalLast s' last' es next') := by
  cases es with
  | nil => exact hn R le_rfl hs.sensible _ _ hlast
  | cons e rest =>
    obtain ⟨hfirst, hrest⟩ := Bool.and_eq_true_iff.1 he
    exact Expr.parallel_eval hs e _ _ hfirst fun S hRS hS v v' hv =>
      parallel_evalLast (hs.mono hRS hS) rest v v' next next' hv hrest (hn.mono hRS)

theorem Property.parallel_eval {R : Correspondence} (hs : Scopes deliver R s s') (p : Property)
    (next next' : String × Value → Process) (hp : p.isPassive = true)
    (hn : GoesOn deliver R (fun S e e' => e.1 = e'.1 ∧ S e.2 e'.2) next next') :
    (p.eval s next).Parallel deliver R (p.eval s' next') := by
  cases p with
  | named name value =>
    exact Expr.parallel_eval hs value _ _ hp fun S hRS hS v v' hv =>
      hn S hRS hS (name, v) (name, v') ⟨rfl, hv⟩
  | constant kind text value =>
    exact Expr.parallel_eval hs value _ _ hp fun S hRS hS v v' hv =>
      .keyOf (hS.plain (isPlain_constant kind text)) fun T hST hT key =>
        hn T (le_trans hRS hST) hT (key, v) (key, v') ⟨rfl, hST _ _ hv⟩
  | computed key value =>
    obtain ⟨hk, hv⟩ := Bool.and_eq_true_iff.1 hp
    exact Expr.parallel_eval hs value _ _ hv fun S hRS hS v v' hvv =>
      Expr.parallel_eval (hs.mono hRS hS) key _ _ hk fun T hST _ k k' hkk =>
        .keyOf hkk fun U hTU hU key =>
          hn U (le_trans hRS (le_trans hST hTU)) hU (key, v) (key, v')
            ⟨rfl, hTU _ _ (hST _ _ hvv)⟩

theorem parallel_evalProperties {R : Correspondence} (hs : Scopes deliver R s s') (ps : List Property)
    (next next' : List (String × Value) → Process) (hp : allPropertiesPassive ps = true)
    (hn : GoesOn deliver R FieldsMatch next next') :
    (evalProperties s ps next).Parallel deliver R (evalProperties s' ps next') := by
  cases ps with
  | nil => exact hn R le_rfl hs.sensible [] [] .nil
  | cons p rest =>
    obtain ⟨hfirst, hrest⟩ := Bool.and_eq_true_iff.1 hp
    exact Property.parallel_eval hs p _ _ hfirst fun S hRS hS e e' he =>
      parallel_evalProperties (hs.mono hRS hS) rest _ _ hrest fun T hST hT es es' hes =>
        hn T (le_trans hRS hST) hT _ _ (.cons ⟨he.1, hST _ _ he.2⟩ hes)

end

end Eval

/-! ### The right process alone -/

theorem World.settle_of_not_pending {σ : Type} (host : Host σ) (w : World σ) {v : Value}
    (hv : v.isPending = false) : w.settle host v = (.settled v, w) := by
  cases v <;> first | rfl | cases hv

/-- A property that is read from a heap without pending values is in that heap. -/
theorem Heap.Closed.within_of_getProperty {h : Heap} (hc : h.Closed 0) {target v : Value}
    {key : String} (hg : h.getProperty target key = .ok v) : v.Within h 0 :=
  h.forall_getProperty (fun _ hp => Value.within_of_isPlain hp h 0) hc.elements hc.fields hg

/-- Everything that stands for something in the heap `h`, with no regard to what it stands for. -/
def Heap.anything (h : Heap) : Correspondence := fun v v' => v.Alike v' ∧ v'.Within h 0

theorem Heap.sensible_anything (h : Heap) : Sensible h.anything :=
  ⟨fun hp => ⟨.plain hp, Value.within_of_isPlain hp h 0⟩, fun hv => hv.1⟩

theorem Heap.le_anything_of_grows {R : Correspondence} {h h' : Heap} (hR : R ≤ h.anything)
    (hg : h.Grows h') : R ≤ h'.anything :=
  fun _ _ hv => ⟨(hR _ _ hv).1, hg.within (hR _ _ hv).2⟩

theorem Heap.anything_self {h : Heap} {v : Value} (hv : v.Within h 0) : h.anything v v :=
  ⟨.self (Value.isPending_of_within hv), hv⟩

/-- What stands for values stands in the heap. -/
theorem Heap.within_of_forall₂ {R : Correspondence} {h : Heap} (hR : R ≤ h.anything) {es es' : List Value}
    (he : List.Forall₂ R es es') : ∀ v ∈ es', v.Within h 0 := by
  induction he with
  | nil => nofun
  | cons hv _ ih => exact List.forall_mem_cons.2 ⟨(hR _ _ hv).2, ih⟩

theorem Heap.within_of_fieldsMatch {R : Correspondence} {h : Heap} (hR : R ≤ h.anything) {fs fs' : Fields}
    (hf : FieldsMatch R fs fs') : ∀ f ∈ fs', f.2.Within h 0 := by
  induction hf with
  | nil => nofun
  | cons hf _ ih => exact List.forall_mem_cons.2 ⟨(hR _ _ hf.2).2, ih⟩

namespace Process
variable {σ : Type} {deliver : Nat → Value}

/-- One poll ends a process, with a value that is in the heap if it does not fail, and leaves no pending
values in the heap. -/
structure Ends (s : Setting σ) (q : Process) (w : World σ) : Prop where
  grows : w.heap.Grows (q.poll s w).2.heap
  closed : (q.poll s w).2.heap.Closed 0
  answer : (∃ v, (q.poll s w).1 = .finished v ∧ v.Within (q.poll s w).2.heap 0) ∨
    ∃ e, (q.poll s w).1 = .failed e

/-- A process whose poll comes to the poll of another one in a heap that has grown ends if that one
does. -/
theorem Ends.of_poll_eq {s : Setting σ} {q q' : Process} {w w' : World σ} (h : q'.Ends s w')
    (hg : w.heap.Grows w'.heap) (heq : q.poll s w = q'.poll s w') : q.Ends s w := by
  obtain ⟨hgrows, hclosed, hanswer⟩ := h
  rw [← heq] at hgrows hclosed hanswer
  exact ⟨hg.trans hgrows, hclosed, hanswer⟩

theorem Ends.of_failed {s : Setting σ} {q : Process} {w w' : World σ} (e : EvalError)
    (hg : w.heap.Grows w'.heap) (hc : w'.heap.Closed 0) (heq : q.poll s w = (.failed e, w')) :
    q.Ends s w := by
  refine ⟨?_, ?_, .inr ⟨e, ?_⟩⟩ <;> rw [heq]
  · exact hg
  · exact hc

/-- The right process of a parallel pair ends in one poll, if all that it knows is in a heap without
pending values. -/
theorem Parallel.ends (t : Timing σ)
    (call : Nat → Value → List Value → World σ → Outcome × World σ) {R : Correspondence}
    {p q : Process} (hp : p.Parallel deliver R q) {w : World σ} (hR : R ≤ w.heap.anything) (hc : w.heap.Closed 0) :
    q.Ends (t.setting deliver call) w := by
  induction hp generalizing w with
  | done hv => exact ⟨.refl _, hc, .inl ⟨_, rfl, (hR _ _ hv).2⟩⟩
  | fail e e' => exact .of_failed e' (.refl _) hc rfl
  | @settle R v v' next next' hv hn ih =>
    obtain ⟨k, u, -, hu⟩ := hv
    have hw := (hR _ _ hu).2
    have hsettle := w.settle_of_not_pending (t.setting deliver call).host
      (Value.isPending_of_within hw)
    have hends := ih _ hR (Heap.sensible_anything _) v' v' (Heap.anything_self hw) le_rfl hc
    refine hends.of_poll_eq (.refl _) ?_
    simp only [poll, hsettle]
  | @read R target target' key next next' ht hn ih =>
    cases hg : w.heap.getProperty target' key with
    | error e => exact .of_failed e (.refl _) hc (by simp only [poll, hg])
    | ok x =>
      have hw := hc.within_of_getProperty hg
      have hx : Eventually deliver w.heap.anything x x :=
        ⟨0, x, .here (Value.isPending_of_within hw), Heap.anything_self hw⟩
      have hends := ih _ hR (Heap.sensible_anything _) x x hx le_rfl hc
      refine hends.of_poll_eq (.refl _) ?_
      simp only [poll, hg]
  | keyOf hv hn ih =>
    exact (ih _ hR (Heap.sensible_anything _) _ le_rfl hc).of_poll_eq (.refl _) rfl
  | @newArray R es es' next next' he hn ih =>
    have hgrows := w.heap.grows_newArray es'.toArray
    have hends := ih _ (Heap.le_anything_of_grows hR hgrows) (Heap.sensible_anything _) _ _
      (Heap.anything_self (w.heap.newArray_within es'.toArray))
      (w := { w with heap := (w.heap.newArray es'.toArray).2 }) le_rfl
      (hc.newArray (Heap.within_of_forall₂ hR he))
    exact hends.of_poll_eq hgrows rfl
  | @newObject R fs fs' next next' hf hn ih =>
    have hgrows := w.heap.grows_newObject fs'
    have hends := ih _ (Heap.le_anything_of_grows hR hgrows) (Heap.sensible_anything _) _ _
      (Heap.anything_self (w.heap.newObject_within fs')) (w := { w with heap := (w.heap.newObject fs').2 }) le_rfl
      (hc.newObject (Heap.within_of_fieldsMatch hR hf))
    exact hends.of_poll_eq hgrows rfl
  | @binary R op a a' b b' next next' ha hb hn ih =>
    cases ho : op.apply w.heap a' b' with
    | error e => exact .of_failed e (.refl _) hc (by simp only [poll, Timing.applyBinary_setting, ho])
    | ok v =>
      have hw := Value.within_of_isPlain (op.isPlain_apply _ _ _ ho) w.heap 0
      refine (ih _ hR (Heap.sensible_anything _) v v (Heap.anything_self hw) le_rfl hc).of_poll_eq (.refl _) ?_
      simp only [poll, Timing.applyBinary_setting, ho]
  | @unary R op v v' next next' hv hn ih =>
    cases ho : op.apply w.heap v' with
    | error e => exact .of_failed e (.refl _) hc (by simp only [poll, Timing.applyUnary_setting, ho])
    | ok v =>
      have hw := Value.within_of_isPlain (op.isPlain_apply _ _ ho) w.heap 0
      refine (ih _ hR (Heap.sensible_anything _) v v (Heap.anything_self hw) le_rfl hc).of_poll_eq (.refl _) ?_
      simp only [poll, Timing.applyUnary_setting, ho]
  | @join R l l' r r' next next' hl hr hn ihl ihr ihn =>
    obtain ⟨hgl, hcl, hal⟩ := ihl hR hc
    cases hpl : l'.poll (t.setting deliver call) w with
    | mk answer w₁ =>
      rw [hpl] at hgl hcl hal
      rcases hal with ⟨a, rfl, ha⟩ | ⟨e, rfl⟩
      · have hR₁ := Heap.le_anything_of_grows hR hgl
        obtain ⟨hgr, hcr, har⟩ := ihr hR₁ hcl
        cases hpr : r'.poll (t.setting deliver call) w₁ with
        | mk answer w₂ =>
          rw [hpr] at hgr hcr har
          rcases har with ⟨b, rfl, hb⟩ | ⟨e, rfl⟩
          · have hR₂ := Heap.le_anything_of_grows hR₁ hgr
            have hends := ihn _ hR₂ (Heap.sensible_anything _) a a b b
              (Heap.anything_self (hgr.within ha)) (Heap.anything_self hb) le_rfl hcr
            refine hends.of_poll_eq (hgl.trans hgr) ?_
            simp only [poll, hpl, hpr]
          · exact .of_failed e (hgl.trans hgr) hcr (by simp only [poll, hpl, hpr])
      · exact .of_failed e hgl hcl (by simp only [poll, hpl])

end Process

end LatentExpr
