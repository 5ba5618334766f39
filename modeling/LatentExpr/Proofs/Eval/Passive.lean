import LatentExpr.Eval.Interpreter
import LatentExpr.Proofs.Eval.Timing
import LatentExpr.Proofs.Heap.Available

/-!
Passive expressions: those that call nothing and assign nothing. Their processes write nothing, so
whenever such a process is polled the heap only grows, and what is left of it is passive again. It is
left waiting only where a pending value was refused, which is what makes it end under a fair timing.
-/
namespace LatentExpr

/-! ### Passive expressions -/

mutual

/-- Whether nothing in an expression is called or assigned. -/
def Expr.isPassive : Expr → Bool
  | .assign .. | .call .. => false
  | .comma items => allPassive items
  | .ternary test consequent alternate =>
    test.isPassive && consequent.isPassive && alternate.isPassive
  | .logical _ left right => left.isPassive && right.isPassive
  | .binary _ _ left right => left.isPassive && right.isPassive
  | .unary _ operand => operand.isPassive
  | .identifier _ | .constant .. | .literal _ | .receiver => true
  | .member object _ => object.isPassive
  | .index object key => object.isPassive && key.isPassive
  | .array elements => allPassive elements
  | .object properties => allPropertiesPassive properties
termination_by structural e => e

def allPassive : List Expr → Bool
  | [] => true
  | e :: rest => e.isPassive && allPassive rest
termination_by structural es => es

def Property.isPassive : Property → Bool
  | .named _ value => value.isPassive
  | .constant _ _ value => value.isPassive
  | .computed key value => key.isPassive && value.isPassive
termination_by structural p => p

def allPropertiesPassive : List Property → Bool
  | [] => true
  | p :: rest => p.isPassive && allPropertiesPassive rest
termination_by structural ps => ps

end

/-! ### Passive processes -/

/-- A process that writes nothing and calls nothing, whatever it reads. Pending values that it comes to
are among the first `n`, and what it builds arrays of is not pending. -/
inductive Process.Passive (n : Nat) : Process → Prop where
  | done (v : Value) : Passive n (.done v)
  | fail (e : EvalError) : Passive n (.fail e)
  | settle {v : Value} {next : Value → Process} (hv : v.Below n)
    (hn : ∀ u, u.isPending = false → Passive n (next u)) : Passive n (.settle v next)
  | read {target : Value} {key : String} {next : Value → Process}
    (hn : ∀ v, v.Below n → Passive n (next v)) : Passive n (.read target key next)
  | keyOf {v : Value} {next : String → Process} (hn : ∀ key, Passive n (next key)) :
    Passive n (.keyOf v next)
  | newArray {elements : List Value} {next : Value → Process}
    (he : ∀ v ∈ elements, v.isPending = false)
    (hn : ∀ v, v.isPending = false → Passive n (next v)) : Passive n (.newArray elements next)
  | newObject {fields : Fields} {next : Value → Process}
    (hf : ∀ f ∈ fields, f.2.isPending = false)
    (hn : ∀ v, v.isPending = false → Passive n (next v)) : Passive n (.newObject fields next)
  | binary {op : BinaryOp} {a b : Value} {next : Value → Process}
    (hn : ∀ v, v.isPending = false → Passive n (next v)) : Passive n (.binary op a b next)
  | unary {op : UnaryOp} {v : Value} {next : Value → Process}
    (hn : ∀ v, v.isPending = false → Passive n (next v)) : Passive n (.unary op v next)
  | join {left right : Process} {next : Value → Value → Process} (hl : Passive n left)
    (hr : Passive n right) (hn : ∀ a b, Passive n (next a b)) : Passive n (.join left right next)

theorem isPlain_constant (kind : ConstantKind) (text : String) :
    (Constant.value kind text).isPlain = true := by
  cases kind <;> rfl

theorem isPlain_literal (l : Literal) : l.value.isPlain = true := by
  cases l <;> rfl

section Eval
variable {n : Nat} {s : Scope}

theorem Process.Passive.readSettled {target : Value} {key : String} {next : Value → Process}
    (hn : ∀ v, v.isPending = false → (next v).Passive n) :
    (Process.readSettled target key next).Passive n :=
  .read fun _ hv => .settle hv hn

mutual

/-- The process of a passive expression is passive if what goes on with its value is. -/
theorem Expr.passive_eval (hs : s.receiver.Below n) (e : Expr) (next : Value → Process)
    (he : e.isPassive = true) (hn : ∀ v, v.isPending = false → (next v).Passive n) :
    (e.eval s next).Passive n := by
  cases e with
  | assign | call => cases he
  | identifier name => exact .readSettled hn
  | receiver => exact .settle hs hn
  | constant kind text => exact hn _ (Value.isPending_of_isPlain (isPlain_constant kind text))
  | literal l => exact hn _ (Value.isPending_of_isPlain (isPlain_literal l))
  | array elements =>
    exact passive_evalAll hs elements _ he fun vs hvs => .newArray hvs hn
  | object properties =>
    exact passive_evalProperties hs properties _ he fun entries hes =>
      .newObject (Fields.forall_ofEntries (P := fun v => v.isPending = false) hes) hn
  | member object name =>
    exact Expr.passive_eval hs object _ he fun _ _ => .readSettled hn
  | index object key =>
    obtain ⟨ho, hk⟩ := Bool.and_eq_true_iff.1 he
    exact Expr.passive_eval hs object _ ho fun _ _ =>
      Expr.passive_eval hs key _ hk fun _ _ => .keyOf fun _ => .readSettled hn
  | comma items =>
    exact passive_evalLast hs items .undefined next rfl he hn
  | ternary test consequent alternate =>
    obtain ⟨htc, ha⟩ := Bool.and_eq_true_iff.1 he
    obtain ⟨ht, hc⟩ := Bool.and_eq_true_iff.1 htc
    refine Expr.passive_eval hs test _ ht fun v _ => ?_
    cases hv : v.truthy with
    | true => exact Expr.passive_eval hs consequent next hc hn
    | false => exact Expr.passive_eval hs alternate next ha hn
  | logical op left right =>
    obtain ⟨hl, hr⟩ := Bool.and_eq_true_iff.1 he
    cases op
    all_goals
      refine Expr.passive_eval hs left _ hl fun v hv => ?_
      cases ht : v.truthy
      all_goals first | exact hn v hv | exact Expr.passive_eval hs right next hr hn
  | binary level op left right =>
    obtain ⟨hl, hr⟩ := Bool.and_eq_true_iff.1 he
    exact .join (Expr.passive_eval hs left _ hl fun v _ => .done v)
      (Expr.passive_eval hs right _ hr fun v _ => .done v) fun _ _ => .binary hn
  | unary op operand =>
    exact Expr.passive_eval hs operand _ he fun _ _ => .unary hn

theorem passive_evalAll (hs : s.receiver.Below n) (es : List Expr) (next : List Value → Process)
    (he : allPassive es = true)
    (hn : ∀ vs, (∀ v ∈ vs, v.isPending = false) → (next vs).Passive n) :
    (evalAll s es next).Passive n := by
  cases es with
  | nil => exact hn [] (by simp)
  | cons e rest =>
    obtain ⟨hfirst, hrest⟩ := Bool.and_eq_true_iff.1 he
    exact Expr.passive_eval hs e _ hfirst fun v hv =>
      passive_evalAll hs rest _ hrest fun vs hvs => hn _ (List.forall_mem_cons.2 ⟨hv, hvs⟩)

theorem passive_evalLast (hs : s.receiver.Below n) (es : List Expr) (last : Value)
    (next : Value → Process) (hlast : last.isPending = false) (he : allPassive es = true)
    (hn : ∀ v, v.isPending = false → (next v).Passive n) : (evalLast s last es next).Passive n := by
  cases es with
  | nil => exact hn last hlast
  | cons e rest =>
    obtain ⟨hfirst, hrest⟩ := Bool.and_eq_true_iff.1 he
    exact Expr.passive_eval hs e _ hfirst fun v hv => passive_evalLast hs rest v next hv hrest hn

theorem Property.passive_eval (hs : s.receiver.Below n) (p : Property)
    (next : String × Value → Process) (hp : p.isPassive = true)
    (hn : ∀ e : String × Value, e.2.isPending = false → (next e).Passive n) :
    (p.eval s next).Passive n := by
  cases p with
  | named name value => exact Expr.passive_eval hs value _ hp fun v hv => hn (name, v) hv
  | constant kind text value =>
    exact Expr.passive_eval hs value _ hp fun v hv => .keyOf fun key => hn (key, v) hv
  | computed key value =>
    obtain ⟨hk, hv⟩ := Bool.and_eq_true_iff.1 hp
    exact Expr.passive_eval hs value _ hv fun v hv =>
      Expr.passive_eval hs key _ hk fun _ _ => .keyOf fun key => hn (key, v) hv

theorem passive_evalProperties (hs : s.receiver.Below n) (ps : List Property)
    (next : List (String × Value) → Process) (hp : allPropertiesPassive ps = true)
    (hn : ∀ es : List (String × Value), (∀ e ∈ es, e.2.isPending = false) → (next es).Passive n) :
    (evalProperties s ps next).Passive n := by
  cases ps with
  | nil => exact hn [] (by simp)
  | cons p rest =>
    obtain ⟨hfirst, hrest⟩ := Bool.and_eq_true_iff.1 hp
    exact Property.passive_eval hs p _ hfirst fun e he =>
      passive_evalProperties hs rest _ hrest fun es hes =>
        hn _ (List.forall_mem_cons.2 ⟨he, hes⟩)

end

end Eval

/-! ### Polling -/

/-- What holds of plain values and of everything in the heap holds of a property that is read. -/
theorem Heap.forall_getProperty (h : Heap) {P : Value → Prop} (hp : ∀ v, v.isPlain = true → P v)
    (he : ∀ i, ∀ v ∈ (h.elements i).toList, P v) (hf : ∀ i, ∀ f ∈ h.fields i, P f.2)
    {target v : Value} {key : String} (hg : h.getProperty target key = .ok v) : P v := by
  rcases isPlain_or_holds_of_getProperty hg with hplain | hholds
  · exact hp v hplain
  · cases hholds with
    | element hv => exact he _ v (Array.mem_toList_iff.2 hv)
    | field hmem => exact hf _ _ hmem

theorem BinaryOp.isPlain_apply (h : Heap) (op : BinaryOp) (a b : Value) {v : Value}
    (hv : op.apply h a b = .ok v) : v.isPlain = true := by
  cases op
  case add =>
    cases hv
    unfold Heap.add
    split <;> rfl
  case custom => cases hv
  all_goals
    cases hv
    rfl

theorem UnaryOp.isPlain_apply (h : Heap) (op : UnaryOp) (a : Value) {v : Value}
    (hv : op.apply h a = .ok v) : v.isPlain = true := by
  cases op <;> cases hv <;> rfl

namespace World
variable {σ : Type} {t : Timing σ} {deliver : Nat → Value} {n : Nat} {w : World σ}

theorem Passes.newArray (hw : w.Sound deliver n) {elements : List Value}
    (he : ∀ v ∈ elements, v.isPending = false) :
    w.Passes t deliver n { w with heap := (w.heap.newArray elements.toArray).2 } := by
  refine ⟨Heap.grows_newArray _ _, ⟨hw.size, hw.known, fun i v hv => ?_, hw.fields⟩, .refl _⟩
  rw [Heap.elements_newArray] at hv
  split at hv
  · exact Value.below_of_not_pending (he v hv)
  · exact hw.elements i v hv

theorem Passes.newObject (hw : w.Sound deliver n) {fields : Fields}
    (hf : ∀ f ∈ fields, f.2.isPending = false) :
    w.Passes t deliver n { w with heap := (w.heap.newObject fields).2 } := by
  refine ⟨Heap.grows_newObject _ _, ⟨hw.size, hw.known, hw.elements, fun i f hi => ?_⟩, .refl _⟩
  rw [Heap.fields_newObject] at hi
  split at hi
  · exact Value.below_of_not_pending (hf f hi)
  · exact hw.fields i f hi

end World

/-- A setting without configured operators, in which pending values come as `t` says. -/
def Timing.setting {σ : Type} (t : Timing σ) (deliver : Nat → Value)
    (call : Nat → Value → List Value → World σ → Outcome × World σ) : Setting σ :=
  ⟨t.host deliver call, .empty⟩

theorem Timing.applyBinary_setting {σ : Type} (t : Timing σ) (deliver : Nat → Value)
    (call : Nat → Value → List Value → World σ → Outcome × World σ) (op : BinaryOp) (a b : Value)
    (w : World σ) :
    (t.setting deliver call).operators.applyBinary op a b w = (op.apply w.heap a b, w) := rfl

theorem Timing.applyUnary_setting {σ : Type} (t : Timing σ) (deliver : Nat → Value)
    (call : Nat → Value → List Value → World σ → Outcome × World σ) (op : UnaryOp) (v : Value)
    (w : World σ) : (t.setting deliver call).operators.applyUnary op v w = (op.apply w.heap v, w) := rfl

/-- What is left of a side of a join that has not failed. -/
inductive Progress.Leaves : Progress → Process → Prop where
  | finished (v : Value) : Leaves (.finished v) (.done v)
  | waiting (rest : Process) : Leaves (.waiting rest) rest

theorem Progress.Leaves.elim {progress : Progress} {rest : Process} {P : Process → Prop} (h : progress.Leaves rest)
    (hdone : ∀ v, P (.done v)) (hrest : ∀ rest, progress = .waiting rest → P rest) : P rest := by
  cases h with
  | finished v => exact hdone v
  | waiting rest => exact hrest rest rfl

namespace Process
variable {σ : Type} {deliver : Nat → Value} {n : Nat}

/-- What a join comes to, given what its sides came to one after the other. -/
inductive Joins (s : Setting σ) (next : Value → Value → Process) (w₁ w₂ : World σ) (polled : Progress × World σ) :
    Progress → Progress → Prop where
  | leftFailed {r : Progress} (e : EvalError) (heq : polled = (.failed e, w₁)) :
    Joins s next w₁ w₂ polled (.failed e) r
  | rightFailed {l : Progress} (e : EvalError) (heq : polled = (.failed e, w₂)) :
    Joins s next w₁ w₂ polled l (.failed e)
  | goesOn (a b : Value) (heq : polled = (next a b).poll s w₂) :
    Joins s next w₁ w₂ polled (.finished a) (.finished b)
  | waits {l r : Progress} {left right : Process} (hl : l.Leaves left) (hr : r.Leaves right)
    (hwaits : l = .waiting left ∨ r = .waiting right) (heq : polled = (.waiting (.join left right next), w₂)) :
    Joins s next w₁ w₂ polled l r

theorem poll_join {s : Setting σ} {left right : Process} {w w₁ w₂ : World σ} {l r : Progress}
    (next : Value → Value → Process) (hl : left.poll s w = (l, w₁)) (hr : right.poll s w₁ = (r, w₂)) :
    Joins s next w₁ w₂ ((join left right next).poll s w) l r := by
  rw [poll, hl]
  cases l with
  | failed e => exact .leftFailed e rfl
  | finished a =>
    simp only [hr]
    cases r with
    | failed e => exact .rightFailed e rfl
    | finished b => exact .goesOn a b rfl
    | waiting right => exact .waits (.finished a) (.waiting right) (.inr rfl) rfl
  | waiting left =>
    simp only [hr]
    cases r with
    | failed e => exact .rightFailed e rfl
    | finished b => exact .waits (.waiting left) (.finished b) (.inl rfl) rfl
    | waiting right => exact .waits (.waiting left) (.waiting right) (.inl rfl) rfl

/-- What is left of a process that waits: it is passive, and a pending value was refused. -/
def LeftWaiting (t : Timing σ) (n : Nat) (w w' : World σ) (rest : Process) : Prop :=
  rest.Passive n ∧ ∃ id, id < n ∧ t.Refuses id w.host w'.host

/-- One poll of a passive process. -/
theorem Passive.poll (t : Timing σ) (call : Nat → Value → List Value → World σ → Outcome × World σ)
    (hd : Delivers deliver n) {p : Process} (hp : p.Passive n) {w : World σ}
    (hw : w.Sound deliver n) :
    w.Passes t deliver n (p.poll (t.setting deliver call) w).2 ∧
      ∀ rest, (p.poll (t.setting deliver call) w).1 = .waiting rest →
        LeftWaiting t n w (p.poll (t.setting deliver call) w).2 rest := by
  induction hp generalizing w with
  | done v => exact ⟨.refl hw, by simp [Process.poll]⟩
  | fail e => exact ⟨.refl hw, by simp [Process.poll]⟩
  | @settle v next hv hn ih =>
    obtain ⟨k, u, hl⟩ := hd.exists_leads hv
    obtain ⟨w₁, answer, heq, hpass, -, hanswer⟩ := World.settle_spec call hd hl hv hw
    have heq : w.settle (t.setting deliver call).host v = (answer, w₁) := heq
    simp only [Process.poll, heq]
    cases hanswer with
    | settled =>
      obtain ⟨hpass', hrest⟩ := ih u hl.isPending_eq_false hpass.sound
      refine ⟨hpass.trans hpass', fun rest hr => ?_⟩
      obtain ⟨hp, id, hid, hno⟩ := hrest rest hr
      exact ⟨hp, id, hid, hno.before hpass.reaches⟩
    | waiting hid hl hno =>
      refine ⟨hpass, fun rest hr => ?_⟩
      obtain rfl := Progress.waiting.inj hr
      refine ⟨.settle ?_ hn, _, hid, hno⟩
      rintro other ⟨⟩
      exact hid
  | @read target key next hn ih =>
    simp only [Process.poll]
    cases hg : w.heap.getProperty target key with
    | ok v =>
      refine ih v (w.heap.forall_getProperty ?_ hw.elements hw.fields hg) hw
      exact fun _ hp => Value.below_of_not_pending (Value.isPending_of_isPlain hp)
    | error e => exact ⟨.refl hw, by simp⟩
  | keyOf _ ih => exact ih _ hw
  | @newArray elements next he _ ih =>
    have hpass : w.Passes t deliver n { w with heap := (w.heap.newArray elements.toArray).2 } :=
      .newArray hw he
    obtain ⟨hpass', hrest⟩ := ih (w.heap.newArray elements.toArray).1 rfl hpass.sound
    exact ⟨hpass.trans hpass', hrest⟩
  | @newObject fields next hf _ ih =>
    have hpass : w.Passes t deliver n { w with heap := (w.heap.newObject fields).2 } :=
      .newObject hw hf
    obtain ⟨hpass', hrest⟩ := ih (w.heap.newObject fields).1 rfl hpass.sound
    exact ⟨hpass.trans hpass', hrest⟩
  | @binary op a b next _ ih =>
    simp only [Process.poll, Timing.applyBinary_setting]
    cases ho : op.apply w.heap a b with
    | ok v => exact ih v (Value.isPending_of_isPlain (op.isPlain_apply _ _ _ ho)) hw
    | error e => exact ⟨.refl hw, by simp⟩
  | @unary op v next _ ih =>
    simp only [Process.poll, Timing.applyUnary_setting]
    cases ho : op.apply w.heap v with
    | ok v => exact ih v (Value.isPending_of_isPlain (op.isPlain_apply _ _ ho)) hw
    | error e => exact ⟨.refl hw, by simp⟩
  | @join left right next hl hr hn ihl ihr ihn =>
    obtain ⟨hpl, hwl⟩ := ihl hw
    cases hleft : left.poll (t.setting deliver call) w with
    | mk l w₁ =>
    rw [hleft] at hpl hwl
    obtain ⟨hpr, hwr⟩ := ihr hpl.sound
    cases hright : right.poll (t.setting deliver call) w₁ with
    | mk r w₂ =>
    rw [hright] at hpr hwr
    have hpass := hpl.trans hpr
    cases poll_join next hleft hright with
    | leftFailed e heq =>
      rw [heq]
      exact ⟨hpl, nofun⟩
    | rightFailed e heq =>
      rw [heq]
      exact ⟨hpass, nofun⟩
    | goesOn a b heq =>
      rw [heq]
      obtain ⟨hpn, hwn⟩ := ihn a b hpr.sound
      refine ⟨hpass.trans hpn, fun rest hrest => ?_⟩
      obtain ⟨hp, id, hid, hno⟩ := hwn rest hrest
      exact ⟨hp, id, hid, hno.before hpass.reaches⟩
    | waits hrestl hrestr hwaits heq =>
      rw [heq]
      refine ⟨hpass, fun rest hrest => ?_⟩
      obtain rfl := Progress.waiting.inj hrest
      have hjoin := Passive.join (hrestl.elim .done fun rest hrest => (hwl rest hrest).1)
        (hrestr.elim .done fun rest hrest => (hwr rest hrest).1) hn
      refine ⟨hjoin, ?_⟩
      -- The side that waits has refused a value.
      rcases hwaits with hwaits | hwaits
      · obtain ⟨-, id, hid, hno⟩ := hwl _ hwaits
        exact ⟨id, hid, hno.after hpr.reaches⟩
      · obtain ⟨-, id, hid, hno⟩ := hwr _ hwaits
        exact ⟨id, hid, hno.before hpl.reaches⟩

end Process

end LatentExpr
