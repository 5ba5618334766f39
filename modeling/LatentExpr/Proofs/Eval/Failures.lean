import LatentExpr.Engine.Builder
import LatentExpr.Proofs.Eval.Discipline
import LatentExpr.Proofs.Grammar.Admitted

/-!
How the evaluation of a parsed expression can fail. Where the host and the configured operators only raise
errors of the host, no value is stored in something that is no target, and an operator is unsupported only if
the table recognises it and nothing gives it a meaning (`Expr.Admitted.fails`). The table of the default engine
recognises no such operator.
-/
namespace LatentExpr

def EvalError.isHost : EvalError → Bool
  | host _ => true
  | _ => false

/-- A table recognises an operator that has neither a built-in meaning where it stands nor a configured one. -/
inductive SymbolTable.LacksMeaning {σ : Type} (t : SymbolTable) (ops : Operators σ) (symbol : String) :
    Prop where
  | binary (level : BinaryLevel) (hl : t.Lists level.group symbol)
    (hb : ∀ op ∈ BinaryOp.builtIn level, op.symbol ≠ symbol) (ho : ops.binary? symbol = none)
  | unary (hl : t.Lists .unary symbol) (hb : ∀ op ∈ UnaryOp.builtIn, op.symbol ≠ symbol)
    (ho : ops.unary? symbol = none)

/-! ### Settings that fail with host errors -/

section
variable {σ : Type} {s : Setting σ} {I : World σ → Prop}

/-- While `I` holds, functions, pending values and configured operators fail with errors of the host alone,
and `I` goes on holding. -/
structure Setting.HostErrors (s : Setting σ) (I : World σ → Prop) : Prop where
  change : ∀ {w} heap, I w → I { w with heap }
  ask : ∀ {w} id, I w → I (w.poll s.host id).2 ∧
    ∀ e, (w.poll s.host id).1 = some (.error e) → e.isHost = true
  call : ∀ {w} id receiver args, I w → I (s.host.call id receiver args w).2 ∧
    ∀ e, (s.host.call id receiver args w).1 = .error e → e.isHost = true
  binary : ∀ {symbol meaning}, s.operators.binary? symbol = some meaning → ∀ {w} a b, I w →
    I (meaning a b w).2 ∧ ∀ e, (meaning a b w).1 = .error e → e.isHost = true
  unary : ∀ {symbol meaning}, s.operators.unary? symbol = some meaning → ∀ {w} v, I w →
    I (meaning v w).2 ∧ ∀ e, (meaning v w).1 = .error e → e.isHost = true

theorem Heap.error_getProperty {h : Heap} {target : Value} {key : String} {e : EvalError}
    (he : h.getProperty target key = .error e) : e = .cannotRead key target.kind := by
  cases target <;> cases he <;> rfl

theorem Heap.error_setProperty {h : Heap} {target value : Value} {key : String} {e : EvalError}
    (he : h.setProperty target key value = .error e) :
    e = .cannotSet key target.kind ∨ ∃ length, e = .invalidArrayLength length := by
  cases target with
  | object => cases he
  | array id =>
    unfold setProperty at he
    simp only at he
    split at he
    · unfold setElement at he
      split at he
      · cases he
      · dsimp only at he
        split at he
        · exact .inr ⟨_, (Except.error.inj he).symm⟩
        · cases he
    · split at he
      · unfold requestedLength at he
        dsimp only at he
        split at he
        · change setLength h id _ = _ at he
          unfold setLength at he
          split at he
          · exact .inr ⟨_, (Except.error.inj he).symm⟩
          · cases he
        · exact .inr ⟨_, (Except.error.inj he).symm⟩
      · exact .inl (Except.error.inj he).symm
  | _ => exact .inl (Except.error.inj he).symm

theorem BinaryOp.error_apply {h : Heap} {op : BinaryOp} {a b : Value} {e : EvalError}
    (he : op.apply h a b = .error e) : ∃ symbol, op = .custom symbol ∧ e = .unsupportedOperator symbol := by
  cases op <;> cases he
  exact ⟨_, rfl, rfl⟩

theorem UnaryOp.error_apply {h : Heap} {op : UnaryOp} {v : Value} {e : EvalError}
    (he : op.apply h v = .error e) : ∃ symbol, op = .custom symbol ∧ e = .unsupportedOperator symbol := by
  cases op <;> cases he
  exact ⟨_, rfl, rfl⟩

theorem BinaryOp.custom_not_mem_builtIn {level : BinaryLevel} {symbol : String} :
    .custom symbol ∉ builtIn level := by
  cases level <;> simp [builtIn]

/-- What is known of a process of an expression that a table admits: its operators belong to the table, and an
operator that it finds unsupported lacks a meaning. -/
def Discipline.ofTable (t : SymbolTable) (ops : Operators σ) : Discipline where
  value _ := True
  binary op := ∃ level, op.Belongs t level
  unary op := op.Belongs t
  error
    | .invalidAssignmentTarget _ => False
    | .unsupportedOperator symbol => t.LacksMeaning ops symbol
    | _ => True

theorem Discipline.ofTable_lenient (t : SymbolTable) (ops : Operators σ) : (ofTable t ops).Lenient :=
  ⟨fun _ => trivial, fun _ _ => trivial⟩

theorem Discipline.ofTable_admits {t : SymbolTable} {ops : Operators σ} {e : Expr} (he : t.Admits e) :
    (ofTable t ops).Admits e := by
  cases e with
  | assign => exact .inl he
  | binary level op => exact ⟨level, he⟩
  | unary => exact he
  | _ => exact trivial

theorem Discipline.error_of_isHost {t : SymbolTable} {ops : Operators σ} {e : EvalError}
    (he : e.isHost = true) : (ofTable t ops).error e := by
  cases e <;> first | exact trivial | cases he

theorem Setting.HostErrors.upholds (hs : s.HostErrors I) (t : SymbolTable) :
    s.Upholds (.ofTable t s.operators) I where
  change := hs.change
  ask id hw := ⟨(hs.ask id hw).1, fun e he => Discipline.error_of_isHost ((hs.ask id hw).2 e he)⟩
  read he := by
    obtain rfl := Heap.error_getProperty he
    exact trivial
  write he := by
    obtain rfl | ⟨length, rfl⟩ := Heap.error_setProperty he <;> exact trivial
  call f receiver args _ _ hw := by
    cases f with
    | arrayMethod m =>
      refine ⟨hs.change _ hw, fun e he => ?_⟩
      cases receiver <;> cases he <;> exact trivial
    | stringMethod m =>
      refine ⟨hw, fun e he => ?_⟩
      cases receiver <;> cases he <;> exact trivial
    | host id =>
      obtain ⟨hw', hhost⟩ := hs.call id receiver args hw
      exact ⟨hw', fun e he => Discipline.error_of_isHost (hhost e he)⟩
  binary op a b hop _ _ hw := by
    unfold Operators.applyBinary
    cases hm : s.operators.binary? op.symbol with
    | some meaning =>
      obtain ⟨hw', hhost⟩ := hs.binary hm a b hw
      exact ⟨hw', fun _ _ => trivial, fun e he => Discipline.error_of_isHost (hhost e he)⟩
    | none =>
      refine ⟨hw, fun _ _ => trivial, fun e he => ?_⟩
      obtain ⟨symbol, rfl, rfl⟩ := BinaryOp.error_apply he
      obtain ⟨level, hlisted, hmeant⟩ := hop
      obtain ⟨-, hother⟩ := hmeant.resolve_left BinaryOp.custom_not_mem_builtIn
      exact .binary level hlisted hother hm
  unary op v hop _ hw := by
    unfold Operators.applyUnary
    cases hm : s.operators.unary? op.symbol with
    | some meaning =>
      obtain ⟨hw', hhost⟩ := hs.unary hm v hw
      exact ⟨hw', fun _ _ => trivial, fun e he => Discipline.error_of_isHost (hhost e he)⟩
    | none =>
      refine ⟨hw, fun _ _ => trivial, fun e he => ?_⟩
      obtain ⟨symbol, rfl, rfl⟩ := UnaryOp.error_apply he
      obtain ⟨hlisted, hmeant⟩ := hop
      obtain ⟨-, hother⟩ := hmeant.resolve_left (by simp [UnaryOp.builtIn])
      exact .unary hlisted hother hm

/-- How an expression that a table admits can fail, whenever it is polled. -/
theorem Expr.Admitted.fails {t : SymbolTable} {e : Expr} (he : e.Admitted t) (hs : s.HostErrors I)
    {scope : Scope} {q : Process} (hq : (e.eval scope .done).Remains s I q) {w w' : World σ} (hw : I w)
    {err : EvalError} (hpoll : q.poll s w = (.failed err, w')) :
    (∀ target, err ≠ .invalidAssignmentTarget target) ∧
      ∀ symbol, err = .unsupportedOperator symbol → t.LacksMeaning s.operators symbol := by
  have hfollows : (e.eval scope .done).Follows (.ofTable t s.operators) :=
    e.follows_eval (Discipline.ofTable_lenient t s.operators) _
      (he.mono (fun _ => Discipline.ofTable_admits) fun _ _ => trivial) fun _ => .done
  obtain ⟨hend, -⟩ := (hfollows.remains (hs.upholds t) hq).poll (hs.upholds t) hw
  rw [hpoll] at hend
  cases hend with
  | failed herr =>
    refine ⟨?_, ?_⟩
    · rintro target rfl
      exact herr
    · rintro symbol rfl
      exact herr

end

/-! ### The default engine -/

theorem BinaryOp.exists_mem_builtIn {level : BinaryLevel} :
    ∀ symbol ∈ level.group.builtIn, ∃ op ∈ builtIn level, op.symbol = symbol := by
  cases level <;> simp [BinaryLevel.group, OperatorGroup.builtIn, builtIn, BinaryOp.symbol]

theorem UnaryOp.exists_mem_builtIn :
    ∀ symbol ∈ OperatorGroup.unary.builtIn, ∃ op ∈ builtIn, op.symbol = symbol := by
  simp [OperatorGroup.builtIn, builtIn, UnaryOp.symbol]

/-- Every symbol that the default engine recognises as an operator has a built-in meaning. -/
theorem SymbolTable.not_lacksMeaning_builtIn {σ : Type} {ops : Operators σ} {symbol : String} :
    ¬builtIn.LacksMeaning ops symbol := by
  intro h
  cases h with
  | binary level hl hb _ =>
    obtain ⟨op, hop, hsymbol⟩ := BinaryOp.exists_mem_builtIn symbol (lists_ofGroups.1 hl).1
    exact hb op hop hsymbol
  | unary hl hb _ =>
    obtain ⟨op, hop, hsymbol⟩ := UnaryOp.exists_mem_builtIn symbol (lists_ofGroups.1 hl).1
    exact hb op hop hsymbol

/-- The tree of a source is one that the table admits, and however its evaluation goes, it never stores a
value in something that is no target; with the symbols of the default engine, it never finds an operator
unsupported. -/
theorem Expr.parse_admitted {source : String} {definitions : List (String × List String)} {e : Expr}
    (h : Expr.parse source (.ofGroups definitions) = .ok e) :
    e.Admitted (.ofGroups definitions) ∧
      ∀ {σ : Type} (s : Setting σ) (I : World σ → Prop), s.HostErrors I →
        ∀ scope q, (e.eval scope .done).Remains s I q → ∀ w, I w →
          ∀ err w', q.poll s w = (.failed err, w') →
            (∀ target, err ≠ .invalidAssignmentTarget target) ∧
              (SymbolTable.ofGroups definitions = (Engine.default : Engine σ).symbols →
                ∀ symbol, err ≠ .unsupportedOperator symbol) := by
  have hadmitted := Expr.admitted_of_parse h
  refine ⟨hadmitted, fun s I hs scope q hq w hw err w' hpoll => ?_⟩
  obtain ⟨htarget, hmeaning⟩ := hadmitted.fails hs hq hw hpoll
  refine ⟨htarget, fun hdefault symbol hsymbol => ?_⟩
  have hlacks := hmeaning symbol hsymbol
  rw [hdefault] at hlacks
  exact SymbolTable.not_lacksMeaning_builtIn hlacks

/-- A host whose functions refuse every call, and which has no pending values. -/
def refusing : Setting Unit where
  host := ⟨fun _ _ _ w => (.error (.host "refused"), w), fun _ w => (none, w)⟩
  operators := .empty

/-- An environment with the function `f`. -/
def refusingWorld : World Unit := ⟨⟨#[], #[[("f", .function (.host 0))]]⟩, #[], ()⟩

/-- The tree of `o.a = f(1), -'x'`. -/
def refusedExpr : Expr :=
  .comma [.assign (.member (.identifier "o") "a") (.call (.identifier "f") [.constant .number "1"]),
    .unary .neg (.constant .string "'x'")]

theorem hostErrors_refusing : refusing.HostErrors fun w => w.outcomes = #[] where
  change _ hw := hw
  ask {w} id hw := by
    have hnone : w.outcome? id = none := by simp [World.outcome?, hw]
    simp only [World.poll, hnone]
    refine ⟨hw, ?_⟩
    rintro e ⟨⟩
  call id receiver args hw := by
    refine ⟨hw, ?_⟩
    rintro e ⟨⟩
    rfl
  binary hm := by cases hm
  unary hm := by cases hm

theorem parse_admitted_refused :
    Expr.parse "o.a = f(1), -'x'" .builtIn = .ok refusedExpr ∧ refusedExpr.Admitted .builtIn ∧
      refusing.HostErrors (fun w => w.outcomes = #[]) ∧
        ∃ err, (refusedExpr.invoke refusing ⟨.undefined, .object 0⟩ refusingWorld).1 = .failed err ∧
          (∀ target, err ≠ .invalidAssignmentTarget target) ∧ ∀ symbol, err ≠ .unsupportedOperator symbol := by
  have h : Expr.parse "o.a = f(1), -'x'" .builtIn = .ok refusedExpr := by cbv
  obtain ⟨hadmitted, hfails⟩ := Expr.parse_admitted h
  obtain ⟨htarget, hsymbol⟩ := hfails refusing _ hostErrors_refusing ⟨.undefined, .object 0⟩ _ .whole
    refusingWorld rfl (.host "refused") _ rfl
  exact ⟨h, hadmitted, hostErrors_refusing, _, rfl, htarget, hsymbol rfl⟩

end LatentExpr
