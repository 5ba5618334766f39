import LatentExpr.Proofs.Eval.Foretold
import LatentExpr.Proofs.Eval.Run

/-!
Pending values are transparent. An expression that calls nothing and assigns nothing is evaluated twice:
in a world where fields of objects and the receiver may be pending, under a fair timing, and in the same
world with every pending value replaced by what it turns out to be. The first evaluation ends too, and
as the second one does: with a value that corresponds to the other one, or with a failure if the other
one failed. Containers from before correspond to themselves, fresh ones up to their numbers.
-/
namespace LatentExpr

namespace World
variable {σ : Type} {deliver : Nat → Value} {w : World σ}

/-- Pending values are in fields of objects alone, each of them turns out to be a value that is in the
heap and leads to one that is not pending, and what is remembered of them is right. -/
structure Latent (deliver : Nat → Value) (w : World σ) : Prop where
  closed : w.heap.Closed w.outcomes.size
  within : ∀ id, id < w.outcomes.size → (deliver id).Within w.heap w.outcomes.size
  leads : ∀ id, id < w.outcomes.size → ∃ k u, Leads deliver k (.pending id) u
  known : ∀ id o, w.outcome? id = some o → o = .ok (deliver id)

theorem Latent.delivers (hw : w.Latent deliver) : Delivers deliver w.outcomes.size :=
  ⟨fun id hid => Value.below_of_within (hw.within id hid), hw.leads⟩

theorem Latent.sound (hw : w.Latent deliver) : w.Sound deliver w.outcomes.size where
  size := Nat.le_refl _
  known id o _ ho := hw.known id o ho
  elements i v hv :=
    Value.below_of_not_pending (Value.isPending_of_within (hw.closed.elements i v hv))
  fields i f hf := Value.below_of_within (hw.closed.fields i f hf)

end World

namespace Process
variable {σ : Type} {t : Timing σ} {deliver : Nat → Value} {n : Nat} {F : Heap}
  {call : Nat → Value → List Value → World σ → Outcome × World σ}

/-- However often a process is polled, what is foretold of it is kept. -/
theorem Foretold.run (hd : Delivers deliver n) {R : Correspondence} {A : Set Value} {p : Process}
    {o : Option Value} (h : Foretold t deliver call F R A p o) {w : World σ}
    (ha : Agrees deliver R w.heap F) (hA : Avoids R A) (hw : w.Sound deliver n) (hp : p.Passive n)
    (turns : Nat) :
    ∃ S, R ≤ S ∧ Agrees deliver S (p.run (t.setting deliver call) t.tick turns w).2.heap F ∧
      Answers t deliver call F S A o (p.run (t.setting deliver call) t.tick turns w).1 := by
  induction turns generalizing R A p w with
  | zero =>
    obtain ⟨S, hS, haS, hans⟩ := h.keeps hd w ha hA hw hp
    exact ⟨S, hS.le, haS, hans⟩
  | succ turns ih =>
    obtain ⟨S, hS, haS, hans⟩ := h.keeps hd w ha hA hw hp
    obtain ⟨hpass, hleft⟩ := Passive.poll t call hd hp hw
    cases hpoll : p.poll (t.setting deliver call) w with
    | mk answer w' =>
      rw [hpoll] at haS hans hpass hleft
      cases hans with
      | finished hv =>
        simp only [Process.run, hpoll]
        exact ⟨S, hS.le, haS, .finished hv⟩
      | failed e =>
        simp only [Process.run, hpoll]
        exact ⟨S, hS.le, haS, .failed e⟩
      | @waiting B rest _ hBA hB hf =>
        rw [run_succ_of_waiting hpoll]
        have hsound := hpass.sound
        obtain ⟨T, hST, haT, hans⟩ := ih (w := { w' with host := t.tick w'.host }) hf haS hB
          ⟨hsound.size, hsound.known, hsound.elements, hsound.fields⟩ (hleft rest rfl).1
        exact ⟨T, le_trans hS.le hST, haT, hans.mono hBA⟩

/-- Two evaluations end the same way: with corresponding values, or both with a failure. -/
inductive EndAlike (R : Correspondence) : Progress → Progress → Prop where
  | finished {v v' : Value} (hv : R v v') : EndAlike R (.finished v) (.finished v')
  | failed (e e' : EvalError) : EndAlike R (.failed e) (.failed e')

/-- What was foretold has come true once a process has ended. -/
theorem Answers.endAlike {R : Correspondence} {A : Set Value} {answer answer' : Progress}
    (h : Answers t deliver call F R A answer'.value? answer) (hended : answer.isWaiting = false)
    (hended' : answer'.isWaiting = false) : EndAlike R answer answer' := by
  cases answer' with
  | finished v' =>
    cases h with
    | finished hv => exact .finished hv
    | waiting => cases hended
  | failed e' =>
    cases h with
    | failed e => exact .failed e e'
    | waiting => cases hended
  | waiting => cases hended'

theorem Ends.isWaiting {s : Setting σ} {q : Process} {w : World σ} (h : q.Ends s w) :
    (q.poll s w).1.isWaiting = false := by
  rcases h.answer with ⟨v, hv, -⟩ | ⟨e, he⟩
  · rw [hv]
    rfl
  · rw [he]
    rfl

/-- Evaluating a passive expression while values are pending ends, and as evaluating it with the values
that they turn out to be does. The two heaps agree then, and what was there before is the same. -/
theorem eval_transparent {σ : Type} (t : Timing σ) (deliver : Nat → Value)
    (call : Nat → Value → List Value → World σ → Outcome × World σ) {e : Expr}
    (he : e.isPassive = true) {w : World σ} (hw : w.Latent deliver) (hfair : t.Fair w.host)
    {receiver receiver' : Value} {k : Nat} (hr : receiver.Within w.heap w.outcomes.size)
    (hrr : Leads deliver k receiver receiver') {environment : Nat}
    (henv : environment < w.heap.objects.size) {settled : Heap}
    (hs : w.heap.Settled deliver settled) :
    let s := t.setting deliver call
    let plain := (e.eval ⟨receiver', .object environment⟩ .done).poll s { w with heap := settled }
    ∃ turns, ∃ R : Correspondence,
      let latent := (e.eval ⟨receiver, .object environment⟩ .done).run s t.tick turns w
      (∀ v, v.Within w.heap 0 → R v v) ∧ Agrees deliver R latent.2.heap plain.2.heap ∧
        EndAlike R latent.1 plain.1 := by
  intro s plain
  let R : Correspondence := fun v v' => v' = v ∧ v.Within w.heap 0
  have hR : Agrees deliver R w.heap settled := hs.agrees hw.closed hw.within
  have hc : settled.Closed 0 := hs.closed hw.closed hw.within
  have hreceiver : Eventually deliver R receiver receiver' :=
    ⟨k, receiver', hrr, rfl, hrr.within hw.within hr⟩
  have hscopes : Scopes deliver R ⟨receiver, .object environment⟩ ⟨receiver', .object environment⟩ :=
    ⟨hR.sensible, hreceiver, rfl, henv⟩
  have hparallel := e.parallel_eval hscopes .done .done he fun _ _ _ _ _ hv => .done hv
  have hpassive : (e.eval ⟨receiver, .object environment⟩ .done).Passive w.outcomes.size :=
    e.passive_eval (Value.below_of_within hr) .done he fun v _ => .done v
  have hany : R ≤ settled.anything := by
    rintro x _ ⟨rfl, hx⟩
    exact Heap.anything_self ((hs.within_iff _).2 hx)
  have hends := hparallel.ends t call (w := { w with heap := settled }) hany hc
  have hforetold : Foretold t deliver call plain.2.heap R (settled.fresh plain.2.heap) _
      plain.1.value? := .ahead hparallel le_rfl hany hc (.refl _)
  have havoid : Avoids R (settled.fresh plain.2.heap) := by
    rintro x _ ⟨rfl, hx⟩ hfresh
    exact hfresh.2 ((hs.within_iff _).2 hx)
  obtain ⟨turns, hended⟩ := hpassive.ends hw.delivers hw.sound hfair
  obtain ⟨S, hRS, haS, hans⟩ := hforetold.run hw.delivers (hR.grow (.refl _) hends.grows) havoid
    hw.sound hpassive turns
  exact ⟨turns, S, fun v hv => hRS _ _ ⟨rfl, hv⟩, haS, hans.endAlike hended hends.isWaiting⟩

/-! ### A chain of pending values -/

/-- The receiver is pending, turns out to be pending again, and then to be an object with a pending
field. -/
def chain : Nat → Value
  | 0 => .pending 1
  | 1 => .object 1
  | _ => .bool true

def chainHeap (field : Value) : Heap := ⟨#[], #[[("b", .null)], [("a", field)]]⟩

def chainWorld : World Nat := ⟨chainHeap (.pending 2), #[none, none, none], 0⟩

/-- The source `[this.a, b]`. -/
def chainExpr : Expr := .array [.member .receiver "a", .identifier "b"]

theorem latent_chainWorld : chainWorld.Latent chain where
  closed := by
    refine ⟨fun i v hv => ?_, fun i f hf => ?_⟩
    · simp [chainWorld, chainHeap, Heap.elements] at hv
    · rcases i with _ | _ | i <;> simp_all [chainWorld, chainHeap, Heap.fields, Value.Within]
  within id _ := by
    rcases id with _ | _ | id <;> simp [chain, chainWorld, chainHeap, Value.Within]
  leads id _ := by
    rcases id with _ | _ | id
    · exact ⟨2, .object 1, .next (.next (.here rfl))⟩
    · exact ⟨1, .object 1, .next (.here rfl)⟩
    · exact ⟨1, .bool true, .next (.here rfl)⟩
  known id o ho := by
    rcases id with _ | _ | _ | id <;> simp [World.outcome?, chainWorld] at ho

theorem settled_chainHeap : chainWorld.heap.Settled chain (chainHeap (.bool true)) where
  arrays := rfl
  objects := rfl
  fields i := by
    match i with
    | 0 => exact .cons ⟨rfl, 0, .here rfl⟩ .nil
    | 1 => exact .cons ⟨rfl, 1, .next (.here rfl)⟩ .nil
    | i + 2 => exact .nil

/-- When each value of the chain comes a poll after the one before it, the array is made in the end. -/
theorem eval_transparent_chain :
    chainExpr.isPassive = true ∧ chainWorld.Latent chain ∧ (Timing.clock id).Fair chainWorld.host ∧
      Leads chain 2 (.pending 0) (.object 1) ∧
      chainWorld.heap.Settled chain (chainHeap (.bool true)) ∧
      ∃ turns, ∃ R : Correspondence,
        EndAlike R ((chainExpr.eval ⟨.pending 0, .object 0⟩ .done).run
          ((Timing.clock id).setting chain fun _ _ _ w => (.ok .undefined, w)) (Timing.clock id).tick
          turns chainWorld).1 (.finished (.array 0)) := by
  have hfair := Timing.clock_fair id chainWorld.host
  have hleads : Leads chain 2 (.pending 0) (.object 1) := .next (.next (.here rfl))
  have hpassive : chainExpr.isPassive = true := rfl
  have hreceiver : (Value.pending 0).Within chainWorld.heap chainWorld.outcomes.size := by
    show 0 < 3
    decide
  have henvironment : 0 < chainWorld.heap.objects.size := by decide
  obtain ⟨turns, R, -, -, hend⟩ := eval_transparent (Timing.clock id) chain
    (fun _ _ _ w => (.ok .undefined, w)) hpassive latent_chainWorld hfair hreceiver hleads
    henvironment settled_chainHeap
  exact ⟨hpassive, latent_chainWorld, hfair, hleads, settled_chainHeap, turns, R, hend⟩

end Process

end LatentExpr
