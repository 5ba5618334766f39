import LatentExpr.Proofs.Eval.Discipline
import LatentExpr.Proofs.Eval.Synchronous
import LatentExpr.Proofs.Eval.Untimed

/-!
Nothing that an evaluation hands over is pending. Pending values may be anywhere in the world and come
whenever they like; an evaluation waits for each one that it reads before it goes on with it, unless a
configured operator returns one.
-/
namespace LatentExpr

/-- What configured operators return is not pending if their operands are not. -/
structure Operators.Resolved {σ : Type} (ops : Operators σ) : Prop where
  binary : ∀ {symbol meaning}, ops.binary? symbol = some meaning → ∀ {a b : Value} {w v},
    a.isPending = false → b.isPending = false → (meaning a b w).1 = .ok v → v.isPending = false
  unary : ∀ {symbol meaning}, ops.unary? symbol = some meaning → ∀ {a : Value} {w v},
    a.isPending = false → (meaning a w).1 = .ok v → v.isPending = false

/-- A process that goes on with values and hands over values that are not pending. -/
def Discipline.resolved : Discipline where
  value v := v.isPending = false
  binary _ := True
  unary _ := True
  error _ := True

theorem Discipline.resolved_lenient : resolved.Lenient := ⟨id, fun _ _ => trivial⟩

theorem Discipline.resolved_admits (e : Expr) : resolved.Admits e := by
  cases e with
  | assign => exact .inr trivial
  | _ => exact trivial

/-- The process of every expression hands over values that are not pending. -/
theorem Expr.follows_resolved (e : Expr) (scope : Scope) : (e.eval scope .done).Follows .resolved :=
  e.follows_eval Discipline.resolved_lenient _
    ((throughout_forms Discipline.resolved_admits fun _ => trivial).expr e) fun _ => .done

section Setting
variable {σ : Type} {s : Setting σ}

theorem Operators.Resolved.applyBinary {ops : Operators σ} (ho : ops.Resolved) {op : BinaryOp}
    {a b v : Value} {w : World σ} (ha : a.isPending = false) (hb : b.isPending = false)
    (hv : (ops.applyBinary op a b w).1 = .ok v) : v.isPending = false := by
  unfold Operators.applyBinary at hv
  cases hm : ops.binary? op.symbol with
  | some meaning =>
    rw [hm] at hv
    exact ho.binary hm ha hb hv
  | none =>
    rw [hm] at hv
    exact Value.isPending_of_isPlain (op.isPlain_apply _ _ _ hv)

theorem Operators.Resolved.applyUnary {ops : Operators σ} (ho : ops.Resolved) {op : UnaryOp}
    {a v : Value} {w : World σ} (ha : a.isPending = false)
    (hv : (ops.applyUnary op a w).1 = .ok v) : v.isPending = false := by
  unfold Operators.applyUnary at hv
  cases hm : ops.unary? op.symbol with
  | some meaning =>
    rw [hm] at hv
    exact ho.unary hm ha hv
  | none =>
    rw [hm] at hv
    exact Value.isPending_of_isPlain (op.isPlain_apply _ _ hv)

theorem Operators.Resolved.upholds (ho : s.operators.Resolved) :
    s.Upholds .resolved fun _ => True where
  change _ _ := trivial
  ask _ _ := ⟨trivial, fun _ _ => trivial⟩
  read _ := trivial
  write _ := trivial
  call _ _ _ _ _ _ := ⟨trivial, fun _ _ => trivial⟩
  binary _ _ _ _ ha hb _ := ⟨trivial, fun _ => ho.applyBinary ha hb, fun _ _ => trivial⟩
  unary _ _ _ hv _ := ⟨trivial, fun _ => ho.applyUnary hv, fun _ _ => trivial⟩

/-- However often an evaluation was polled, and whatever happened to the world in between: what it finishes
with is not pending, and when it is polled, nothing is pending that it calls a function with, writes to a
property, or makes an array or object of. -/
theorem Expr.resolved_eval (ho : s.operators.Resolved) (e : Expr) (scope : Scope) {q : Process}
    (hq : (e.eval scope .done).Remains s (fun _ => True) q) (w : World σ) :
    (∀ v w', q.poll s w = (.finished v, w') → v.isPending = false) ∧
      (∀ f receiver args next w', q.Visits s w (.call f receiver args next) w' →
        receiver.isPending = false ∧ ∀ v ∈ args, v.isPending = false) ∧
      (∀ target key value next w', q.Visits s w (.write target key value next) w' →
        value.isPending = false) ∧
      (∀ elements next w', q.Visits s w (.newArray elements next) w' →
        ∀ v ∈ elements, v.isPending = false) ∧
      ∀ fields next w', q.Visits s w (.newObject fields next) w' →
        ∀ f ∈ fields, f.2.isPending = false := by
  have hs := ho.upholds (s := s)
  have hfollows : q.Follows .resolved := (e.follows_resolved scope).remains hs hq
  refine ⟨fun v w' hpoll => ?_, fun f receiver args next w' hcall => ?_,
    fun target key value next w' hwrite => ?_, fun elements next w' hnew => ?_,
    fun fields next w' hnew => ?_⟩
  · obtain ⟨hend, -⟩ := hfollows.poll hs (w := w) trivial
    rw [hpoll] at hend
    cases hend with
    | finished hv => exact hv
  · cases (hfollows.visits hs trivial hcall).1 with
    | call hr ha _ => exact ⟨hr, ha⟩
  · cases (hfollows.visits hs trivial hwrite).1 with
    | write hv _ => exact hv
  · cases (hfollows.visits hs trivial hnew).1 with
    | newArray he _ => exact he
  · cases (hfollows.visits hs trivial hnew).1 with
    | newObject hf _ => exact hf

end Setting

/-- The source `(o.a = f(x)) ** [x]`, where `x` is pending twice over, `f` returns a pending value, and `**`
gives its right operand. -/
def heldExpr : Expr :=
  .binary .multiplicative (.custom "**") lateExpr (.array [.identifier "x"])

def heldSetting : Setting Nat :=
  { lateSetting (fun id => 5 - 2 * id) with operators := counting.operators }

theorem resolved_held : heldSetting.operators.Resolved where
  binary {symbol meaning} hm a b w v _ hb hv := by
    have hmem : (symbol, meaning) ∈ counting.operators.binary := by
      obtain ⟨before, after, heq, -⟩ := List.lookup_eq_some_iff.1 hm
      simp only [heldSetting] at heq
      simp [heq]
    obtain ⟨rfl, rfl⟩ := Prod.mk.inj (List.mem_singleton.1 hmem)
    cases hv
    exact hb
  unary hm := by cases hm

/-- The evaluation is polled six times before it finishes with an array. -/
theorem resolved_eval_held : heldSetting.operators.Resolved ∧
    ∃ q w, (heldExpr.eval ⟨.undefined, .object 0⟩ .done).Remains heldSetting (fun _ => True) q ∧
      (q.poll heldSetting w).1 = .finished (.array 0) ∧ (Value.array 0).isPending = false := by
  obtain ⟨q, w, hq, -, hrun⟩ := (heldExpr.follows_resolved ⟨.undefined, .object 0⟩).run
    resolved_held.upholds Nat.succ (fun _ _ => trivial) .whole (w := lateWorld) trivial 5
  have hend : (q.poll heldSetting w).1 = .finished (.array 0) := by
    rw [← hrun]
    rfl
  obtain ⟨hfinished, -⟩ := Expr.resolved_eval resolved_held heldExpr ⟨.undefined, .object 0⟩ hq w
  exact ⟨resolved_held, q, w, hq, hend, hfinished _ _ (Prod.ext hend rfl)⟩

end LatentExpr
