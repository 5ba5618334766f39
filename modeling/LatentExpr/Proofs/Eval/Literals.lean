import LatentExpr.Proofs.Eval.Passive
import LatentExpr.Proofs.Eval.Reading

/-!
What passive expressions leave and make. Their processes only read (`Expr.reads_eval`), so no container that was
there is changed. What an array or object literal ends with is a container that the evaluation made itself, and so
is what every literal directly in it ended with, and so on (`Built`). So no two evaluations share them, however
their polls are mixed (`passive_leaves_containers`).
-/
namespace LatentExpr

/-! ### Literals -/

mutual

/-- A value that an expression may end with, as far as literals tell: a literal ends with a container that was made
of such values. -/
def Expr.Built (made : Creations) : Expr → Value → Prop
  | .array elements, v => ∃ vs, (v, .elements vs) ∈ made ∧ BuiltAll made elements vs
  | .object properties, v =>
    ∃ entries, (v, .fields (.ofEntries entries)) ∈ made ∧ BuiltEntries made properties entries
  | _, _ => True
termination_by structural e => e

def BuiltAll (made : Creations) : List Expr → List Value → Prop
  | [], vs => vs = []
  | e :: rest, vs => ∃ v more, vs = v :: more ∧ e.Built made v ∧ BuiltAll made rest more
termination_by structural es => es

def Property.Built (made : Creations) : Property → Value → Prop
  | .named _ value, v => value.Built made v
  | .constant _ _ value, v => value.Built made v
  | .computed _ value, v => value.Built made v
termination_by structural p => p

def BuiltEntries (made : Creations) : List Property → List (String × Value) → Prop
  | [], entries => entries = []
  | p :: rest, entries =>
    ∃ key v more, entries = (key, v) :: more ∧ p.Built made v ∧ BuiltEntries made rest more
termination_by structural ps => ps

end

section Mono
variable {made more : Creations}

mutual

/-- What was built stays built. -/
theorem Expr.Built.mono (hsub : made ⊆ more) {e : Expr} {v : Value} (h : e.Built made v) : e.Built more v := by
  cases e with
  | array elements =>
    obtain ⟨vs, hv, hvs⟩ := h
    exact ⟨vs, hsub hv, hvs.mono hsub⟩
  | object properties =>
    obtain ⟨entries, hv, hentries⟩ := h
    exact ⟨entries, hsub hv, hentries.mono hsub⟩
  | _ => trivial

theorem BuiltAll.mono (hsub : made ⊆ more) {es : List Expr} {vs : List Value} (h : BuiltAll made es vs) :
    BuiltAll more es vs := by
  cases es with
  | nil => exact h
  | cons e rest =>
    obtain ⟨v, others, hvs, hv, hothers⟩ := h
    exact ⟨v, others, hvs, hv.mono hsub, hothers.mono hsub⟩

theorem Property.Built.mono (hsub : made ⊆ more) {p : Property} {v : Value} (h : p.Built made v) :
    p.Built more v := by
  cases p with
  | named name value => exact Expr.Built.mono (e := value) hsub h
  | constant kind text value => exact Expr.Built.mono (e := value) hsub h
  | computed key value => exact Expr.Built.mono (e := value) hsub h

theorem BuiltEntries.mono (hsub : made ⊆ more) {ps : List Property} {entries : List (String × Value)}
    (h : BuiltEntries made ps entries) : BuiltEntries more ps entries := by
  cases ps with
  | nil => exact h
  | cons p rest =>
    obtain ⟨key, v, others, hentries, hv, hothers⟩ := h
    exact ⟨key, v, others, hentries, hv.mono hsub, hothers.mono hsub⟩

end

end Mono

/-! ### Evaluation -/

section Eval
variable {s : Scope}

theorem Process.Reads.readSettled {Q : Asked} {made : Creations} {target : Value} {key : String}
    {next : Value → Process} (hn : ∀ more, made ⊆ more → ∀ v, (next v).Reads Q more) :
    (Process.readSettled target key next).Reads Q made :=
  .read fun _ hmore _ => .settle fun _ hfurther => hn _ (hmore.trans hfurther)

mutual

/-- The process of a passive expression only reads, if what goes on with a value that the expression may end with
does. -/
theorem Expr.reads_eval {Q : Asked} {made : Creations} (e : Expr) (next : Value → Process) (he : e.isPassive = true)
    (hn : ∀ more, made ⊆ more → ∀ v, e.Built more v → (next v).Reads Q more) :
    (e.eval s next).Reads Q made := by
  cases e with
  | assign | call => cases he
  | identifier name => exact .readSettled fun more hmore v => hn more hmore v trivial
  | receiver => exact .settle fun more hmore v => hn more hmore v trivial
  | constant kind text => exact hn made .rfl _ trivial
  | literal l => exact hn made .rfl _ trivial
  | array elements =>
    exact reads_evalAll elements _ he fun more hmore vs hvs => .newArray fun further hfurther v hv =>
      hn further (hmore.trans hfurther) v ⟨vs, hv, hvs.mono hfurther⟩
  | object properties =>
    exact reads_evalProperties properties _ he fun more hmore entries hentries =>
      .newObject fun further hfurther v hv =>
        hn further (hmore.trans hfurther) v ⟨entries, hv, hentries.mono hfurther⟩
  | member object name =>
    exact Expr.reads_eval object _ he fun more hmore _ _ => .readSettled fun further hfurther v =>
      hn further (hmore.trans hfurther) v trivial
  | index object key =>
    obtain ⟨ho, hk⟩ := Bool.and_eq_true_iff.1 he
    exact Expr.reads_eval object _ ho fun _ h₁ _ _ => Expr.reads_eval key _ hk fun _ h₂ _ _ =>
      .keyOf fun _ h₃ _ => .readSettled fun further h₄ v =>
        hn further (((h₁.trans h₂).trans h₃).trans h₄) v trivial
  | comma items => exact reads_evalLast items .undefined next he fun more hmore v => hn more hmore v trivial
  | ternary test consequent alternate =>
    obtain ⟨htc, ha⟩ := Bool.and_eq_true_iff.1 he
    obtain ⟨ht, hc⟩ := Bool.and_eq_true_iff.1 htc
    refine Expr.reads_eval test _ ht fun more hmore v _ => ?_
    cases v.truthy with
    | true =>
      exact Expr.reads_eval consequent next hc fun further hfurther v _ =>
        hn further (hmore.trans hfurther) v trivial
    | false =>
      exact Expr.reads_eval alternate next ha fun further hfurther v _ =>
        hn further (hmore.trans hfurther) v trivial
  | logical op left right =>
    obtain ⟨hl, hr⟩ := Bool.and_eq_true_iff.1 he
    have hright (more : Creations) (hmore : made ⊆ more) : (right.eval s next).Reads Q more :=
      Expr.reads_eval right next hr fun further hfurther v _ => hn further (hmore.trans hfurther) v trivial
    cases op
    all_goals
      refine Expr.reads_eval left _ hl fun more hmore v _ => ?_
      cases v.truthy
      all_goals first | exact hn more hmore v trivial | exact hright more hmore
  | binary level op left right =>
    have hl := Bool.and_eq_true_iff.1 he
    exact .join (Expr.reads_eval left _ hl.1 fun _ _ _ _ => .done trivial)
      (Expr.reads_eval right _ hl.2 fun _ _ _ _ => .done trivial) fun _ h₁ _ _ => .binary fun further h₂ v =>
        hn further (h₁.trans h₂) v trivial
  | unary op operand =>
    exact Expr.reads_eval operand _ he fun _ h₁ _ _ => .unary fun further h₂ v =>
      hn further (h₁.trans h₂) v trivial

theorem reads_evalAll {Q : Asked} {made : Creations} (es : List Expr) (next : List Value → Process)
    (he : allPassive es = true)
    (hn : ∀ more, made ⊆ more → ∀ vs, BuiltAll more es vs → (next vs).Reads Q more) :
    (evalAll s es next).Reads Q made := by
  cases es with
  | nil => exact hn made .rfl [] rfl
  | cons e rest =>
    obtain ⟨hfirst, hrest⟩ := Bool.and_eq_true_iff.1 he
    exact Expr.reads_eval e _ hfirst fun more h₁ v hv => reads_evalAll rest _ hrest fun further h₂ vs hvs =>
      hn further (h₁.trans h₂) (v :: vs) ⟨v, vs, rfl, hv.mono h₂, hvs⟩

theorem reads_evalLast {Q : Asked} {made : Creations} (es : List Expr) (last : Value) (next : Value → Process)
    (he : allPassive es = true)
    (hn : ∀ more, made ⊆ more → ∀ v, (next v).Reads Q more) : (evalLast s last es next).Reads Q made := by
  cases es with
  | nil => exact hn made .rfl last
  | cons e rest =>
    obtain ⟨hfirst, hrest⟩ := Bool.and_eq_true_iff.1 he
    exact Expr.reads_eval e _ hfirst fun _ h₁ v _ => reads_evalLast rest v next hrest fun further h₂ =>
      hn further (h₁.trans h₂)

theorem Property.reads_eval {Q : Asked} {made : Creations} (p : Property) (next : String × Value → Process)
    (hp : p.isPassive = true)
    (hn : ∀ more, made ⊆ more → ∀ key v, p.Built more v → (next (key, v)).Reads Q more) :
    (p.eval s next).Reads Q made := by
  cases p with
  | named name value => exact Expr.reads_eval value _ hp fun more hmore v hv => hn more hmore name v hv
  | constant kind text value =>
    exact Expr.reads_eval value _ hp fun _ h₁ v hv => .keyOf fun further h₂ key =>
      hn further (h₁.trans h₂) key v (hv.mono h₂)
  | computed key value =>
    obtain ⟨hk, hv⟩ := Bool.and_eq_true_iff.1 hp
    exact Expr.reads_eval value _ hv fun _ h₁ v hv => Expr.reads_eval key _ hk fun _ h₂ _ _ =>
      .keyOf fun further h₃ key => hn further ((h₁.trans h₂).trans h₃) key v (hv.mono (h₂.trans h₃))

theorem reads_evalProperties {Q : Asked} {made : Creations} (ps : List Property)
    (next : List (String × Value) → Process) (hp : allPropertiesPassive ps = true)
    (hn : ∀ more, made ⊆ more → ∀ entries, BuiltEntries more ps entries → (next entries).Reads Q more) :
    (evalProperties s ps next).Reads Q made := by
  cases ps with
  | nil => exact hn made .rfl [] rfl
  | cons p rest =>
    obtain ⟨hfirst, hrest⟩ := Bool.and_eq_true_iff.1 hp
    exact Property.reads_eval p _ hfirst fun _ h₁ key v hv => reads_evalProperties rest _ hrest
      fun further h₂ entries hentries =>
        hn further (h₁.trans h₂) ((key, v) :: entries) ⟨key, v, entries, rfl, hv.mono h₂, hentries⟩

end

end Eval

/-- A passive expression is evaluated in turns, whatever happens between them. Each turn leaves all containers as they
are, however it ends, and so does the whole evaluation if nothing is written in between. What a literal ends with, and
what the literals in it ended with, are containers that were made in these turns and were not there before. Another
evaluation of the expression makes other ones, whatever order the turns of both take place in. -/
theorem Expr.passive_leaves_containers {σ : Type} {s : Setting σ} (hhost : s.host.LeavesHeap)
    (hoperators : s.operators = .empty) {e : Expr} (he : e.isPassive = true) {scope : Scope} {w w' : World σ}
    {turns : List (Turn σ)} {progress : Progress} (h : (e.eval scope .done).Turns s w turns progress w') :
    (∀ t ∈ turns, t.before.heap.Grows t.after.heap) ∧
    (turns.Pairwise Turn.Undisturbed →
      w.heap.Grows w'.heap ∧ Turn.created turns ⊆ w.heap.created w'.heap) ∧
    (∀ v, progress = .finished v → e.Built (Turn.created turns) v) ∧
    (turns.Pairwise Turn.Precedes →
      ∀ container made, (container, made) ∈ Turn.created turns → ¬ container.Within w.heap 0) ∧
    (∀ scope' u turns' progress' u', (e.eval scope' .done).Turns s u turns' progress' u' →
      (∀ t ∈ turns, ∀ t' ∈ turns', t.Precedes t' ∨ t'.Precedes t) →
        ∀ container made made', (container, made) ∈ Turn.created turns →
          (container, made') ∉ Turn.created turns') := by
  have hreads : (e.eval scope .done).Reads (fun made v => e.Built made v) ∅ :=
    Expr.reads_eval e .done he fun _ _ _ hv => .done hv
  obtain ⟨hgrows, hcomes⟩ := h.reads hhost hoperators hreads
  rw [Set.empty_union] at hcomes
  refine ⟨hgrows, h.created_subset hgrows, ?_, fun hprecedes _ _ => h.not_within hgrows hprecedes,
    fun _ _ _ _ _ _ hapart _ _ _ => Turn.not_mem_created hapart⟩
  rintro v rfl
  exact hcomes

/-- The tree of `[[], x]`. -/
def nestedExpr : Expr := .array [.array [], .identifier "x"]

/-- Pending values that are `true` as soon as they were asked for once before. -/
def secondTime : Setting Nat :=
  ⟨⟨fun _ _ _ w => (.ok .undefined, w),
    fun _ w => if w.host = 0 then (none, { w with host := 1 }) else (some (.ok (.bool true)), w)⟩, .empty⟩

/-- `x` is pending. -/
def pendingScope : Scope := ⟨.undefined, .object 0⟩

/-- A world with some arrays, in which `x` has an outcome or not. -/
def pendingWorld (arrays : Array (Array Value)) (outcome : Option Outcome) (asked : Nat) : World Nat :=
  ⟨⟨arrays, #[[("x", .pending 0)]]⟩, #[outcome], asked⟩

/-- An evaluation that has to wait for `x`. -/
def waitingTurns : List (Turn Nat) :=
  [⟨pendingWorld #[] none 0, pendingWorld #[#[]] none 1⟩,
    ⟨pendingWorld #[#[], #[], #[.array 1, .bool true]] (some (.ok (.bool true))) 1,
      pendingWorld #[#[], #[], #[.array 1, .bool true], #[.array 0, .bool true]] (some (.ok (.bool true))) 1⟩]

/-- Another one that takes place meanwhile. -/
def meantimeTurns : List (Turn Nat) :=
  [⟨pendingWorld #[#[]] none 1, pendingWorld #[#[], #[], #[.array 1, .bool true]] (some (.ok (.bool true))) 1⟩]

theorem Expr.passive_leaves_containers_mixed :
    nestedExpr.Built (Turn.created waitingTurns) (.array 3) ∧
      nestedExpr.Built (Turn.created meantimeTurns) (.array 2) ∧
        (∀ container made, (container, made) ∈ Turn.created waitingTurns →
          ¬ container.Within (pendingWorld #[] none 0).heap 0) ∧
          ∀ container made made', (container, made) ∈ Turn.created waitingTurns →
            (container, made') ∉ Turn.created meantimeTurns := by
  have hhost : secondTime.host.LeavesHeap := by
    intro id w
    simp only [secondTime]
    split <;> exact .refl w.heap
  have hwaiting : (nestedExpr.eval pendingScope .done).Turns secondTime _ waitingTurns (.finished (.array 3)) _ :=
    .on rfl (.last rfl)
  have hmeantime : (nestedExpr.eval pendingScope .done).Turns secondTime _ meantimeTurns (.finished (.array 2)) _ :=
    .last rfl
  have hprecedes : waitingTurns.Pairwise Turn.Precedes := by
    refine .cons (fun t ht => ?_) (.cons nofun .nil)
    rw [List.mem_singleton.1 ht]
    exact ⟨by decide, by decide⟩
  obtain ⟨-, -, hbuilt, hfresh, hapart⟩ := passive_leaves_containers hhost rfl rfl hwaiting
  obtain ⟨-, -, hbuilt', -, -⟩ := passive_leaves_containers hhost rfl rfl hmeantime
  refine ⟨hbuilt _ rfl, hbuilt' _ rfl, hfresh hprecedes,
    hapart _ _ _ _ _ hmeantime fun t ht t' ht' => ?_⟩
  rw [List.mem_singleton.1 ht']
  rcases List.mem_cons.1 ht with rfl | ht
  · exact .inl ⟨by decide, by decide⟩
  · rw [List.mem_singleton.1 ht]
    exact .inr ⟨by decide, by decide⟩

end LatentExpr
