import LatentExpr.Proofs.Eval.Recorded
import LatentExpr.Proofs.Eval.Sequential

/-!
Sequential evaluation does not depend on time. A setting is `Timeless` when there is a still one, in which
all pending values that ever come are there from the start, such that functions, unary operators and pending
values are the same in both. A sequential expression that is run in a timeless setting does what one poll in
the still setting does, if it stops at all, and it stops if every value that it waits for comes. So under
any two timings it makes the same calls and the same writes and ends the same way (`sequential_untimed`).
-/
namespace LatentExpr

/-! ### Pending values that come -/

/-- What comes of a value when the outcomes of pending values are known: after `k` pending values one that
is not pending, or a failure. -/
inductive Comes (known : Nat → Option Outcome) : Nat → Value → Outcome → Prop where
  | here {v : Value} (hv : v.isPending = false) : Comes known 0 v (.ok v)
  | failed {id : Nat} {e : EvalError} (h : known id = some (.error e)) :
    Comes known 1 (.pending id) (.error e)
  | next {k id : Nat} {v : Value} {o : Outcome} (h : known id = some (.ok v))
    (hv : Comes known k v o) : Comes known (k + 1) (.pending id) o

namespace Comes
variable {known : Nat → Option Outcome}

theorem length_unique {k l : Nat} {v : Value} {o o' : Outcome} (h : Comes known k v o)
    (h' : Comes known l v o') : k = l := by
  induction h generalizing l with
  | here hv =>
    cases h' with
    | here => rfl
    | failed | next => cases hv
  | failed hk =>
    cases h' with
    | here hv => cases hv
    | failed => rfl
    | next hk' => rw [hk] at hk'; cases hk'
  | next hk _ ih =>
    cases h' with
    | here hv => cases hv
    | failed hk' => rw [hk] at hk'; cases hk'
    | next hk' hv' =>
      rw [hk] at hk'
      cases hk'
      rw [ih hv']

/-- At each distance from the end there is a pending value, whose outcome is known. -/
theorem exists_pending {k : Nat} {v : Value} {o : Outcome} (h : Comes known k v o) {j : Nat}
    (hj : j < k) : ∃ id, (known id).isSome = true ∧ Comes known (j + 1) (.pending id) o := by
  induction h with
  | here => cases hj
  | failed hk =>
    obtain rfl : j = 0 := by omega
    exact ⟨_, by rw [hk]; rfl, .failed hk⟩
  | @next k id v o hk hv ih =>
    rcases Nat.lt_succ_iff_lt_or_eq.1 hj with hj | rfl
    · exact ih hj
    · exact ⟨id, by rw [hk]; rfl, .next hk hv⟩

/-- No pending value is met twice, so there are no more of them than outcomes are known. -/
theorem length_le {σ : Type} {w : World σ} {k : Nat} {v : Value} {o : Outcome}
    (h : Comes w.outcome? k v o) : k ≤ w.outcomes.size := by
  choose met hknown hmet using fun j : Fin k => h.exists_pending j.isLt
  have hlt : ∀ j, met j < w.outcomes.size := by
    intro j
    by_contra hge
    have := hknown j
    simp [World.outcome?, hge] at this
  have hinj : Function.Injective fun j => (⟨met j, hlt j⟩ : Fin w.outcomes.size) := by
    intro i j hij
    have hij : met i = met j := congrArg Fin.val hij
    have hi := hmet i
    rw [hij] at hi
    have := hi.length_unique (hmet j)
    exact Fin.ext (by omega)
  simpa using Fintype.card_le_of_injective _ hinj

end Comes

namespace World
variable {σ : Type}

def Settling.ofOutcome : Outcome → Settling
  | .ok v => .settled v
  | .error e => .failed e

theorem settleWithin_of_comes (host : Host σ) {w : World σ} {k : Nat} {v : Value} {o : Outcome}
    (h : Comes w.outcome? k v o) {fuel : Nat} (hf : k < fuel) :
    settleWithin host fuel v w = (.ofOutcome o, w) := by
  induction h generalizing fuel with
  | @here v hv =>
    obtain ⟨fuel, rfl⟩ := Nat.exists_eq_add_of_lt hf
    cases v with
    | pending => cases hv
    | _ => rfl
  | failed hk =>
    obtain ⟨fuel, rfl⟩ := Nat.exists_eq_add_of_lt hf
    simp only [settleWithin, World.poll, hk]
    rfl
  | next hk _ ih =>
    obtain ⟨fuel, rfl⟩ := Nat.exists_eq_add_of_lt hf
    simp only [settleWithin, World.poll, hk]
    exact ih (by omega)

/-- Where all that comes of a value is known, nothing is waited for. -/
theorem settle_of_comes (host : Host σ) {w : World σ} {k : Nat} {v : Value} {o : Outcome}
    (h : Comes w.outcome? k v o) : w.settle host v = (.ofOutcome o, w) :=
  settleWithin_of_comes host h (Nat.lt_succ_of_le h.length_le)

end World

/-! ### Timeless settings -/

/-- Two answers are the same, and so are the worlds behind them. -/
def SameAnswer {σ β : Type} (shows : World σ → World β → Prop) (x : Outcome × World σ)
    (y : Outcome × World β) : Prop :=
  x.1 = y.1 ∧ shows x.2 y.2

/-- What is called and awaited in a setting does not depend on time: it is the same in a still setting, where
nothing comes later. `shows` says which world of the still setting has the same heap as a world, knows what
comes of its pending values, and holds whatever functions remember. -/
structure Setting.Timeless {σ β : Type} (s : Setting σ) (tick : σ → σ) (still : Setting β)
    (shows : World σ → World β → Prop) : Prop where
  heap : ∀ {w u}, shows w u → w.heap = u.heap
  change : ∀ {w u} (heap : Heap), shows w u → shows { w with heap } { u with heap }
  call : ∀ {w u} id receiver args, shows w u →
    SameAnswer shows (s.host.call id receiver args w) (still.host.call id receiver args u)
  unary : ∀ symbol, Option.Rel
    (fun m m' => ∀ {w u} v, shows w u → SameAnswer shows (m v w) (m' v u))
    (s.operators.unary? symbol) (still.operators.unary? symbol)
  /-- A pending value that is asked for is refused or gives what is known of it, and nothing else
  happens. -/
  ask : ∀ {w u} id, shows w u → shows (w.poll s.host id).2 u ∧
    ∀ o, (w.poll s.host id).1 = some o → u.outcome? id = some o
  /-- Time changes nothing but what is available. -/
  tick : ∀ {w u}, shows w u → shows { w with host := tick w.host } u
  /-- In the still setting nothing comes that is not known. -/
  silent : ∀ id u, still.host.poll id u = (none, u)

namespace Setting.Timeless
variable {σ β : Type} {s : Setting σ} {tick : σ → σ} {still : Setting β}
  {shows : World σ → World β → Prop} {w : World σ} {u : World β}

theorem sameAnswer_call (ht : s.Timeless tick still shows) (hw : shows w u) (f : Callable)
    (receiver : Value) (args : List Value) :
    SameAnswer shows (w.call s.host f receiver args) (u.call still.host f receiver args) := by
  cases f with
  | arrayMethod m =>
    refine ⟨?_, ?_⟩
    · simp only [World.call, ht.heap hw]
    · simp only [World.call, ht.heap hw]
      exact ht.change _ hw
  | stringMethod m =>
    refine ⟨?_, hw⟩
    simp only [World.call, ht.heap hw]
  | host id => exact ht.call id receiver args hw

theorem sameAnswer_unary (ht : s.Timeless tick still shows) (hw : shows w u) (op : UnaryOp)
    (v : Value) :
    SameAnswer shows (s.operators.applyUnary op v w) (still.operators.applyUnary op v u) := by
  have hmeanings := ht.unary op.symbol
  unfold Operators.applyUnary
  generalize s.operators.unary? op.symbol = meaning at hmeanings ⊢
  generalize still.operators.unary? op.symbol = meaning' at hmeanings ⊢
  cases hmeanings with
  | some hm => exact hm v hw
  | none => exact ⟨by simp only [ht.heap hw], hw⟩

/-- How far waiting for a value gets: to what comes of it, or to a value of which the same comes. -/
inductive Led (known : Nat → Option Outcome) (v : Value) : World.Settling → Prop where
  | ended {k : Nat} {o : Outcome} (h : Comes known k v o) : Led known v (.ofOutcome o)
  | waiting {v' : Value} (h : ∀ k o, Comes known k v' o → ∃ l, Comes known l v o) :
    Led known v (.waiting v')

theorem Led.next {known : Nat → Option Outcome} {id : Nat} {v : Value} {answer : World.Settling}
    (hk : known id = some (.ok v)) (h : Led known v answer) : Led known (.pending id) answer := by
  cases h with
  | ended h => exact .ended (.next hk h)
  | waiting h =>
    refine .waiting fun k o hv => ?_
    obtain ⟨l, hl⟩ := h k o hv
    exact ⟨l + 1, .next hk hl⟩

theorem settleWithin (ht : s.Timeless tick still shows) (fuel : Nat) (v : Value) (hw : shows w u) :
    shows (World.settleWithin s.host fuel v w).2 u ∧
      Led u.outcome? v (World.settleWithin s.host fuel v w).1 := by
  induction fuel generalizing v w with
  | zero => exact ⟨hw, .waiting fun k o hv => ⟨k, hv⟩⟩
  | succ fuel ih =>
    cases v with
    | pending id =>
      obtain ⟨hshows, hask⟩ := ht.ask id hw
      simp only [World.settleWithin]
      generalize w.poll s.host id = answer at hshows hask
      obtain ⟨_ | e | v, w'⟩ := answer
      · exact ⟨hshows, .waiting fun k o hv => ⟨k, hv⟩⟩
      · exact ⟨hshows, .ended (.failed (hask _ rfl))⟩
      · obtain ⟨hshows', hled⟩ := ih v hshows
        exact ⟨hshows', hled.next (hask _ rfl)⟩
    | _ => exact ⟨hw, .ended (.here rfl)⟩

/-- The still setting is timeless itself. -/
theorem still_timeless (ht : s.Timeless tick still shows) : still.Timeless id still Eq where
  heap h := by rw [h]
  change heap h := by rw [h]
  call id receiver args h := by
    rw [h]
    exact ⟨rfl, rfl⟩
  unary symbol := by
    cases still.operators.unary? symbol with
    | none => exact .none
    | some m =>
      refine .some fun v h => ?_
      rw [h]
      exact ⟨rfl, rfl⟩
  ask := by
    rintro w _ id rfl
    unfold World.poll
    cases h : w.outcome? id with
    | some o => exact ⟨rfl, fun _ ho => ho⟩
    | none => simp [ht.silent]
  tick h := h
  silent := ht.silent

end Setting.Timeless

/-! ### One poll -/

/-- The same world, after the same events. -/
structure Recorded.Shown {σ β : Type} (shows : World σ → World β → Prop) (r : Recorded σ)
    (q : Recorded β) : Prop where
  world : shows r.world q.world
  events : r.events = q.events

namespace Process
variable {σ β : Type} {s : Setting σ} {tick : σ → σ} {still : Setting β}
  {shows : World σ → World β → Prop}

/-- What a poll of `p` came to, against the still setting: it is over as it is there, or what is left of the
process will do there what the whole of it does. -/
inductive Mirrors (still : Setting β) (shows : World σ → World β → Prop) (p : Process)
    (q : Recorded β) : Progress × Recorded σ → Prop where
  | ended {answer : Progress} {r' : Recorded σ} {q' : Recorded β} (hover : answer.isWaiting = false)
    (hr : r'.Shown shows q') (h : p.observe still q = (answer, q')) :
    Mirrors still shows p q (answer, r')
  | waiting {rest : Process} {r' : Recorded σ} {q' : Recorded β} (hrest : rest.Sequential)
    (hr : r'.Shown shows q')
    (h : ∀ answer q'', answer.isWaiting = false → rest.observe still q' = (answer, q'') →
      p.observe still q = (answer, q'')) : Mirrors still shows p q (.waiting rest, r')

theorem Mirrors.of_observe {p p' : Process} {q q' : Recorded β} {x : Progress × Recorded σ}
    (h : Mirrors still shows p' q' x) (heq : p.observe still q = p'.observe still q') :
    Mirrors still shows p q x := by
  cases h with
  | ended hover hr h => exact .ended hover hr (heq.trans h)
  | waiting hrest hr h => exact .waiting hrest hr fun answer q'' hover hq => heq.trans (h answer q'' hover hq)

/-- Both processes go on with the same answer, or fail with the same error. -/
theorem Mirrors.goOn {α : Type} {p : Process} {next : α → Process} {x : Except EvalError α}
    {q q' : Recorded β} {r' : Recorded σ} (hr : r'.Shown shows q')
    (hn : ∀ a, Mirrors still shows (next a) q' ((next a).observe s r'))
    (h : p.observe still q = Process.goOn still next (x, q')) :
    Mirrors still shows p q (Process.goOn s next (x, r')) := by
  cases x with
  | ok a => exact (hn a).of_observe h
  | error e => exact .ended rfl hr h

/-- In the still setting a process goes on at once with what comes of a value. -/
theorem observe_settle_of_comes {v : Value} {next : Value → Process} {q : Recorded β} {k : Nat} {o : Outcome}
    (h : Comes q.world.outcome? k v o) :
    (settle v next).observe still q = goOn still next (o, q) := by
  simp only [observe, World.settle_of_comes still.host h]
  cases o <;> rfl

/-- In the still setting, a process that is over got what it waited for. -/
theorem comes_of_observe_settle (ht : s.Timeless tick still shows) {v : Value} {next : Value → Process}
    {q q' : Recorded β} {answer : Progress} (h : (settle v next).observe still q = (answer, q'))
    (hover : answer.isWaiting = false) : ∃ k o, Comes q.world.outcome? k v o := by
  obtain ⟨-, hled⟩ := ht.still_timeless.settleWithin (q.world.outcomes.size + 1) v (Eq.refl q.world)
  simp only [observe, World.settle] at h
  generalize World.settleWithin still.host (q.world.outcomes.size + 1) v q.world = settled at h hled
  obtain ⟨settling, u⟩ := settled
  cases hled with
  | ended hc => exact ⟨_, _, hc⟩
  | waiting =>
    obtain ⟨rfl, -⟩ := Prod.mk.inj h
    cases hover

/-- One poll of a sequential process in a timeless setting. -/
theorem Sequential.mirrors (ht : s.Timeless tick still shows) {p : Process} (hp : p.Sequential)
    {r : Recorded σ} {q : Recorded β} (hr : r.Shown shows q) :
    Mirrors still shows p q (p.observe s r) := by
  induction hp generalizing r q with
  | done | fail => exact .ended rfl hr rfl
  | @settle v next hn ih =>
    obtain ⟨hshows, hled⟩ := ht.settleWithin (r.world.outcomes.size + 1) v hr.world
    simp only [observe, World.settle]
    generalize World.settleWithin s.host (r.world.outcomes.size + 1) v r.world = settled at hshows hled
    obtain ⟨settling, w⟩ := settled
    have hshown : Recorded.Shown shows ⟨w, r.events⟩ q := ⟨hshows, hr.events⟩
    cases hled with
    | @ended k o hc =>
      have hmirrors := Mirrors.goOn hshown (fun u => ih u hshown) (observe_settle_of_comes hc)
      cases o <;> exact hmirrors
    | @waiting v' hv =>
      refine .waiting (.settle hn) hshown fun answer q'' hover hq => ?_
      obtain ⟨k, o, hc⟩ := comes_of_observe_settle ht hq hover
      obtain ⟨l, hl⟩ := hv k o hc
      rw [observe_settle_of_comes hl, ← hq, observe_settle_of_comes hc]
  | @read target key next hn ih =>
    rw [observe_read, ht.heap hr.world]
    exact .goOn hr (fun v => ih v hr) (observe_read still target key next q)
  | @write target key value next hn ih =>
    simp only [observe, ht.heap hr.world]
    cases hset : q.world.heap.setProperty target key value with
    | ok heap =>
      refine (ih ⟨ht.change heap hr.world, ?_⟩).of_observe (by simp only [observe, hset]; rfl)
      rw [hr.events]
    | error e => exact .ended rfl hr (by simp only [observe, hset])
  | keyOf hn ih =>
    simp only [observe, ht.heap hr.world]
    exact (ih _ hr).of_observe rfl
  | @newArray elements next hn ih =>
    simp only [observe, ht.heap hr.world]
    have hshown : Recorded.Shown shows
        ⟨{ r.world with heap := (q.world.heap.newArray elements.toArray).2 }, r.events⟩
        ⟨{ q.world with heap := (q.world.heap.newArray elements.toArray).2 }, q.events⟩ :=
      ⟨ht.change _ hr.world, hr.events⟩
    exact (ih _ hshown).of_observe rfl
  | @newObject fields next hn ih =>
    simp only [observe, ht.heap hr.world]
    have hshown : Recorded.Shown shows
        ⟨{ r.world with heap := (q.world.heap.newObject fields).2 }, r.events⟩
        ⟨{ q.world with heap := (q.world.heap.newObject fields).2 }, q.events⟩ :=
      ⟨ht.change _ hr.world, hr.events⟩
    exact (ih _ hshown).of_observe rfl
  | @call f receiver args next hn ih =>
    obtain ⟨hsame, hshows⟩ := ht.sameAnswer_call hr.world f receiver args
    have hshown : Recorded.Shown shows
        ⟨(r.world.call s.host f receiver args).2, r.events ++ [.called f receiver args]⟩
        ⟨(q.world.call still.host f receiver args).2, q.events ++ [.called f receiver args]⟩ :=
      ⟨hshows, by rw [hr.events]⟩
    simp only [observe_call, hsame]
    exact .goOn hshown (fun v => ih v hshown) (observe_call still f receiver args next q)
  | @unary op v next hn ih =>
    obtain ⟨hsame, hshows⟩ := ht.sameAnswer_unary hr.world op v
    have hshown : Recorded.Shown shows ⟨(s.operators.applyUnary op v r.world).2, r.events⟩
        ⟨(still.operators.applyUnary op v q.world).2, q.events⟩ := ⟨hshows, hr.events⟩
    simp only [observe_unary, hsame]
    exact .goOn hshown (fun u => ih u hshown) (observe_unary still op v next q)

/-! ### Runs -/

/-- However often a sequential process is polled, if it is over then it did what one poll in the still setting
does. -/
theorem Sequential.observe_of_watch (ht : s.Timeless tick still shows) {p : Process}
    (hp : p.Sequential) {r r' : Recorded σ} {q : Recorded β} (hr : r.Shown shows q) {turns : Nat}
    {answer : Progress} (h : p.watch s tick turns r = (answer, r'))
    (hover : answer.isWaiting = false) :
    ∃ q', r'.Shown shows q' ∧ p.observe still q = (answer, q') := by
  induction turns generalizing p r q with
  | zero =>
    have hpoll := hp.mirrors ht hr
    rw [show p.observe s r = (answer, r') from h] at hpoll
    cases hpoll with
    | ended _ hr' hq => exact ⟨_, hr', hq⟩
    | waiting => cases hover
  | succ turns ih =>
    have hpoll := hp.mirrors ht hr
    rw [watch] at h
    generalize p.observe s r = polled at hpoll h
    cases hpoll with
    | @ended answer' r₁ q' hover' hr' hq =>
      cases answer' with
      | waiting => cases hover'
      | finished | failed =>
        obtain ⟨rfl, rfl⟩ := Prod.mk.inj h
        exact ⟨q', hr', hq⟩
    | @waiting rest r₁ q' hrest hr' hq =>
      obtain ⟨q'', hr'', hrest'⟩ := ih hrest (r := r₁.wait tick) ⟨ht.tick hr'.world, hr'.events⟩ h
      exact ⟨q'', hr'', hq _ _ hover hrest'⟩

/-- From some number of polls on, a run is over with an answer, after some events and in some heap. -/
def Concludes (s : Setting σ) (tick : σ → σ) (p : Process) (w : World σ) (answer : Progress)
    (events : List Event) (heap : Heap) : Prop :=
  ∃ n, ∀ turns, n ≤ turns → ∃ r, p.watch s tick turns (.start w) = (answer, r) ∧
    r.events = events ∧ r.world.heap = heap

/-- A sequential process whose awaited values come does what one poll in the still setting does. -/
theorem Sequential.concludes (ht : s.Timeless tick still shows) {p : Process} (hp : p.Sequential)
    {w : World σ} {u : World β} (hw : shows w u) (hc : Completes s tick p w) :
    ∃ answer q, p.observe still (.start u) = (answer, q) ∧ answer.isWaiting = false ∧
      Concludes s tick p w answer q.events q.world.heap := by
  obtain ⟨n, hover⟩ := hp.stops hc
  cases hwatch : p.watch s tick n (.start w) with
  | mk answer r =>
  have hrun : p.run s tick n w = (answer, r.world) := run_of_watch hwatch
  rw [hrun] at hover
  obtain ⟨q, hshown, hstill⟩ := hp.observe_of_watch ht (q := .start u) ⟨hw, rfl⟩ hwatch hover
  exact ⟨answer, q, hstill, hover, n, fun turns hle =>
    ⟨r, watch_of_le hwatch hover hle, hshown.events, ht.heap hshown.world⟩⟩

end Process

/-- A sequential expression is run in two settings that one still setting shows to be timeless, from worlds
that show the same, and all that is awaited comes. Then both runs end, with the same value or the same failure,
after the same calls and the same writes in the same order and with the same heap: with all that of one
poll without any waiting. -/
theorem Expr.sequential_untimed {σ τ β : Type} {s : Setting σ} {tick : σ → σ} {s' : Setting τ}
    {tick' : τ → τ} {still : Setting β} {shows : World σ → World β → Prop}
    {shows' : World τ → World β → Prop} (ht : s.Timeless tick still shows)
    (ht' : s'.Timeless tick' still shows') {e : Expr} (he : e.isSequential = true) (scope : Scope)
    {w : World σ} {w' : World τ} {u : World β} (hw : shows w u) (hw' : shows' w' u)
    (hc : (e.eval scope .done).Completes s tick w)
    (hc' : (e.eval scope .done).Completes s' tick' w') :
    ∃ answer q, (e.eval scope .done).observe still (.start u) = (answer, q) ∧
      answer.isWaiting = false ∧
      (e.eval scope .done).Concludes s tick w answer q.events q.world.heap ∧
      (e.eval scope .done).Concludes s' tick' w' answer q.events q.world.heap := by
  have hp := e.sequential_eval (s := scope) .done he fun v => .done v
  obtain ⟨answer, q, hstill, hover, hconcludes⟩ := hp.concludes ht hw hc
  obtain ⟨answer', q', hstill', -, hconcludes'⟩ := hp.concludes ht' hw' hc'
  obtain ⟨rfl, rfl⟩ := Prod.mk.inj (hstill.symm.trans hstill')
  exact ⟨answer, q, hstill, hover, hconcludes, hconcludes'⟩

/-! ### Delays -/

section Delays
variable {τ : Type} (t : Timing τ) (fates : Array Outcome)
  (reply : Nat → Value → List Value → Heap → Outcome × Heap)

/-- The setting in which functions reply at once, from the heap alone, and pending values turn out to be their
fates when the timing says so. -/
def Timing.delay : Setting τ where
  host :=
    { call := fun id receiver args w =>
        ((reply id receiver args w.heap).1, { w with heap := (reply id receiver args w.heap).2 })
      poll := fun id w =>
        (if (t.ask id w.host).1 then fates[id]? else none, { w with host := (t.ask id w.host).2 }) }
  operators := .empty

/-- The setting in which functions reply as well, and there is no time. -/
def Setting.still : Setting Unit where
  host :=
    { call := fun id receiver args w =>
        ((reply id receiver args w.heap).1, { w with heap := (reply id receiver args w.heap).2 })
      poll := fun _ w => (none, w) }
  operators := .empty

/-- The fates are known in the still world, and what is remembered of them is right. -/
structure World.Awaits (fates : Array Outcome) (w : World τ) (u : World Unit) : Prop where
  heap : w.heap = u.heap
  known : ∀ id, u.outcome? id = fates[id]?
  remembered : ∀ id o, w.outcome? id = some o → fates[id]? = some o

/-- Whatever the timing is, a setting with delays is timeless. -/
theorem Timing.timeless_delay :
    (t.delay fates reply).Timeless t.tick (.still reply) (World.Awaits fates) where
  heap h := h.heap
  change _ h := ⟨rfl, h.known, h.remembered⟩
  call id receiver args h := by
    simp only [delay, Setting.still, h.heap]
    exact ⟨rfl, rfl, h.known, h.remembered⟩
  unary _ := .none
  ask {w u} id h := by
    rw [h.known id]
    unfold World.poll
    cases ho : w.outcome? id with
    | some o => exact ⟨h, fun o' heq => heq ▸ h.remembered id o ho⟩
    | none =>
      simp only [delay]
      cases hfate : (if (t.ask id w.host).1 then fates[id]? else none) with
      | none => exact ⟨⟨h.heap, h.known, h.remembered⟩, by simp⟩
      | some o =>
        have hfate : fates[id]? = some o := by
          split at hfate
          · exact hfate
          · cases hfate
        refine ⟨⟨h.heap, h.known, fun other o' ho' => ?_⟩, fun o' heq => heq ▸ hfate⟩
        rw [World.outcome?_remember] at ho'
        split at ho'
        · rename_i heq
          rw [← heq.1, hfate, ho']
        · exact h.remembered other o' ho'
  tick h := ⟨h.heap, h.known, h.remembered⟩
  silent _ _ := rfl

end Delays

/-- A name that is pending twice over, and what a function returns. -/
def lateFates : Array Outcome := #[.ok (.pending 1), .ok (.string "x"), .ok .null]

/-- The function returns a pending value, and the pending values are due at given polls. -/
def lateSetting (due : Nat → Nat) : Setting Nat :=
  (Timing.clock due).delay lateFates fun _ _ _ heap => (.ok (.pending 2), heap)

def lateHeap (a : Fields) : Heap :=
  ⟨#[], #[[("x", .pending 0), ("f", .function (.host 0)), ("o", .object 1)], a]⟩

def lateWorld : World Nat := ⟨lateHeap [], #[none, none, none], 0⟩

/-- The source `o.a = f(x)`. -/
def lateExpr : Expr :=
  .assign (.member (.identifier "o") "a") (.call (.identifier "f") [.identifier "x"])

def lateProcess : Process := lateExpr.eval ⟨.undefined, .object 0⟩ .done

/-- The function is called once, and the object is written once. -/
def ConcludesOnce (due : Nat → Nat) : Prop :=
  lateProcess.Concludes (lateSetting due) (· + 1) lateWorld (.finished .null)
    [.called (.host 0) .undefined [.string "x"], .wrote (.object 1) "a" .null]
    (lateHeap [("a", .null)])

/-- Pending values come each at a time of its own, or all of them are there from the start. -/
theorem sequential_untimed_late :
    lateExpr.isSequential = true ∧
      lateProcess.Completes (lateSetting fun id => 5 - 2 * id) (· + 1) lateWorld ∧
      lateProcess.Completes (lateSetting fun _ => 0) (· + 1) lateWorld ∧
      ConcludesOnce (fun id => 5 - 2 * id) ∧ ConcludesOnce fun _ => 0 := by
  let known : Array (Option Outcome) :=
    #[some (.ok (.pending 1)), some (.ok (.string "x")), some (.ok .null)]
  have hawaits : lateWorld.Awaits lateFates ⟨lateHeap [], known, ()⟩ := by
    refine ⟨rfl, fun id => ?_, fun id o ho => ?_⟩
    · match id with
      | 0 | 1 | 2 | id + 3 => rfl
    · match id with
      | 0 | 1 | 2 | id + 3 => simp [World.outcome?, lateWorld] at ho
  have hlate : lateProcess.Completes (lateSetting fun id => 5 - 2 * id) (· + 1) lateWorld :=
    Process.Stops.completes ⟨5, rfl⟩
  have hearly : lateProcess.Completes (lateSetting fun _ => 0) (· + 1) lateWorld :=
    Process.Stops.completes ⟨0, rfl⟩
  obtain ⟨answer, q, hstill, -, hconcludes, hconcludes'⟩ := Expr.sequential_untimed
    (Timing.timeless_delay (.clock fun id => 5 - 2 * id) lateFates _)
    (Timing.timeless_delay (.clock fun _ => 0) lateFates _) (e := lateExpr) rfl
    ⟨.undefined, .object 0⟩ hawaits hawaits hlate hearly
  obtain ⟨rfl, rfl⟩ := Prod.mk.inj hstill
  exact ⟨rfl, hlate, hearly, hconcludes, hconcludes'⟩

end LatentExpr
