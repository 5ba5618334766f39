import LatentExpr.Eval.Process
import LatentExpr.Proofs.Heap.Growth

/-!
When pending values become available. A `Timing` is a machine that is asked, again and again, whether a
pending value has come; it may answer as it likes, depending on everything it was asked before and on the
time that passed, and it is `Fair` when it refuses no pending value poll after poll for ever. What a
pending value turns out to be is fixed beforehand by `deliver`.

`settle_spec` says what waiting for a value does under any timing: it ends with the value it leads to, or
it stands at a pending value that was refused, which leads to the same value.
-/
namespace LatentExpr

/-- A schedule of pending values. `ask` answers whether a pending value is available, and `tick` is the
time that passes between two polls. -/
structure Timing (σ : Type) where
  ask : Nat → σ → Bool × σ
  tick : σ → σ

namespace Timing
variable {σ : Type} (t : Timing σ)

/-- The host under which each pending value turns out to be what `deliver` says. -/
def host (deliver : Nat → Value) (call : Nat → Value → List Value → World σ → Outcome × World σ) :
    Host σ where
  call := call
  poll id w :=
    (if (t.ask id w.host).1 then some (.ok (deliver id)) else none,
      { w with host := (t.ask id w.host).2 })

/-- The states that questions and time lead to. -/
inductive Reaches : σ → σ → Prop where
  | refl (a : σ) : Reaches a a
  | ask {a b : σ} (id : Nat) (h : Reaches a b) : Reaches a (t.ask id b).2
  | tick {a b : σ} (h : Reaches a b) : Reaches a (t.tick b)

/-- On some way from one state to another, a pending value is asked for and refused. -/
def Refuses (id : Nat) (a b : σ) : Prop :=
  ∃ c, t.Reaches a c ∧ (t.ask id c).1 = false ∧ t.Reaches (t.ask id c).2 b

/-- However it is asked, the timing does not refuse a pending value again and again with time passing
between the refusals. -/
def Fair (start : σ) : Prop :=
  ∀ id, ¬ ∃ moments : Nat → σ, moments 0 = start ∧
    ∀ k, ∃ c, t.Refuses id (moments k) c ∧ moments (k + 1) = t.tick c

variable {t}

theorem Reaches.trans {a b c : σ} (hab : t.Reaches a b) (hbc : t.Reaches b c) : t.Reaches a c := by
  induction hbc with
  | refl => exact hab
  | ask id _ ih => exact ih.ask id
  | tick _ ih => exact ih.tick

theorem Refuses.before {id : Nat} {a b c : σ} (hab : t.Reaches a b) (h : t.Refuses id b c) :
    t.Refuses id a c := by
  obtain ⟨d, hbd, hno, hdc⟩ := h
  exact ⟨d, hab.trans hbd, hno, hdc⟩

theorem Refuses.after {id : Nat} {a b c : σ} (h : t.Refuses id a b) (hbc : t.Reaches b c) :
    t.Refuses id a c := by
  obtain ⟨d, had, hno, hdb⟩ := h
  exact ⟨d, had, hno, hdb.trans hbc⟩

/-- A clock that counts polls, by which each pending value is available from a time of its own on. -/
def clock (due : Nat → Nat) : Timing Nat where
  ask id now := (decide (due id ≤ now), now)
  tick now := now + 1

theorem clock_le_of_reaches {due : Nat → Nat} {a b : Nat} (h : (clock due).Reaches a b) : a ≤ b := by
  induction h with
  | refl => exact Nat.le_refl a
  | ask id _ ih => exact ih
  | tick _ ih => exact Nat.le_succ_of_le ih

/-- Moments between which a clock refuses the same value are numbered by at most their time, and none of
them is later than the value is due. -/
theorem clock_fair (due : Nat → Nat) (start : Nat) : (clock due).Fair start := by
  rintro id ⟨moments, -, hstep⟩
  have hnext : ∀ k, moments k < moments (k + 1) ∧ moments k < due id := by
    intro k
    obtain ⟨c, ⟨d, hkd, hno, hdc⟩, hc⟩ := hstep k
    have hkd := clock_le_of_reaches hkd
    have hdc : d ≤ c := clock_le_of_reaches hdc
    have hd : ¬ due id ≤ d := of_decide_eq_false hno
    have hc : moments (k + 1) = c + 1 := hc
    omega
  have hlate : ∀ k, k ≤ moments k := by
    intro k
    induction k with
    | zero => exact Nat.zero_le _
    | succ k ih =>
      have := hnext k
      omega
  have := hnext (due id)
  have := hlate (due id)
  omega

end Timing

/-! ### Waiting for a value -/

/-- Pending values are among the first `n`. -/
def Value.Below (n : Nat) (v : Value) : Prop := ∀ id, v = .pending id → id < n

theorem Value.below_of_not_pending {n : Nat} {v : Value} (h : v.isPending = false) : v.Below n := by
  rintro id rfl
  cases h

theorem Value.below_of_within {n : Nat} {h : Heap} {v : Value} (hv : v.Within h n) : v.Below n := by
  rintro id rfl
  exact hv

/-- Each of the first `n` pending values turns out to be a value that is not pending, by way of these
pending values alone. -/
structure Delivers (deliver : Nat → Value) (n : Nat) : Prop where
  below : ∀ id, id < n → (deliver id).Below n
  leads : ∀ id, id < n → ∃ k u, Leads deliver k (.pending id) u

theorem Delivers.exists_leads {deliver : Nat → Value} {n : Nat} (hd : Delivers deliver n) {v : Value}
    (hv : v.Below n) : ∃ k u, Leads deliver k v u := by
  cases v with
  | pending id => exact hd.leads id (hv id rfl)
  | _ => exact ⟨0, _, .here rfl⟩

/-- No pending value is met twice on the way to the value that it leads to, so the way is no longer than
there are pending values. -/
theorem Leads.length_le {deliver : Nat → Value} {n k : Nat} {v u : Value} (hl : Leads deliver k v u)
    (hd : Delivers deliver n) (hv : v.Below n) : k ≤ n := by
  suffices ∃ met : List Nat, met.length = k ∧ met.Nodup ∧
      ∀ id ∈ met, id < n ∧ ∃ l, l ≤ k ∧ Leads deliver l (.pending id) u by
    obtain ⟨met, hlen, hnd, hmet⟩ := this
    have := Agrees.length_le_of_nodup hnd fun id hid => (hmet id hid).1
    omega
  induction hl with
  | here => exact ⟨[], rfl, List.nodup_nil, by simp⟩
  | @next k id u h ih =>
    obtain ⟨met, hlen, hnd, hmet⟩ := ih (hd.below id (hv id rfl))
    have hnew : id ∉ met := by
      intro hid
      obtain ⟨_, l, hle, hl⟩ := hmet id hid
      have := (hl.unique (Leads.next h)).1
      omega
    refine ⟨id :: met, by rw [List.length_cons, hlen], List.nodup_cons.2 ⟨hnew, hnd⟩, ?_⟩
    intro other hother
    rcases List.mem_cons.1 hother with rfl | hother
    · exact ⟨hv _ rfl, k + 1, Nat.le_refl _, h.next⟩
    · obtain ⟨hlt, l, hle, hl⟩ := hmet other hother
      exact ⟨hlt, l, Nat.le_succ_of_le hle, hl⟩

namespace World
variable {σ : Type}

/-- What is remembered of the first `n` pending values is right, and no other pending values are in the
heap. -/
structure Sound (deliver : Nat → Value) (n : Nat) (w : World σ) : Prop where
  size : n ≤ w.outcomes.size
  known : ∀ id o, id < n → w.outcome? id = some o → o = .ok (deliver id)
  elements : ∀ i, ∀ v ∈ (w.heap.elements i).toList, v.Below n
  fields : ∀ i, ∀ f ∈ w.heap.fields i, f.2.Below n

/-- What may happen to a world while nothing is written: the heap grows, and the host is asked for
pending values. -/
structure Passes (t : Timing σ) (deliver : Nat → Value) (n : Nat) (w w' : World σ) : Prop where
  grows : w.heap.Grows w'.heap
  sound : w'.Sound deliver n
  reaches : t.Reaches w.host w'.host

variable {t : Timing σ} {deliver : Nat → Value} {n : Nat} {w w' w'' : World σ}

theorem Passes.refl (hw : w.Sound deliver n) : w.Passes t deliver n w :=
  ⟨.refl _, hw, .refl _⟩

theorem Passes.trans (h : w.Passes t deliver n w') (h' : w'.Passes t deliver n w'') :
    w.Passes t deliver n w'' :=
  ⟨h.grows.trans h'.grows, h'.sound, h.reaches.trans h'.reaches⟩

theorem outcome?_remember (w : World σ) (id other : Nat) (o : Outcome) :
    (w.remember id o).outcome? other =
      if id = other ∧ id < w.outcomes.size then some o else w.outcome? other := by
  simp only [outcome?, remember, Array.getElem?_setIfInBounds]
  by_cases h : id = other
  · subst h
    by_cases hlt : id < w.outcomes.size <;> simp [hlt]
  · simp [h]

variable (call : Nat → Value → List Value → World σ → Outcome × World σ)

/-- A pending value that is asked for gives what it turns out to be, now or earlier, or is refused. -/
theorem poll_spec (hw : w.Sound deliver n) {id : Nat} (hid : id < n) :
    ∃ w', w.Passes t deliver n w' ∧ w'.heap = w.heap ∧
      (w.poll (t.host deliver call) id = (some (.ok (deliver id)), w') ∨
        w.poll (t.host deliver call) id = (none, w') ∧ t.Refuses id w.host w'.host) := by
  unfold poll
  cases ho : w.outcome? id with
  | some o =>
    refine ⟨w, .refl hw, rfl, .inl ?_⟩
    rw [hw.known id o hid ho]
  | none =>
    have hasked : t.Reaches w.host (t.ask id w.host).2 := .ask id (.refl _)
    cases hb : (t.ask id w.host).1 with
    | true =>
      refine ⟨({ w with host := (t.ask id w.host).2 } : World σ).remember id (.ok (deliver id)),
        ⟨.refl _, ⟨?_, ?_, hw.elements, hw.fields⟩, hasked⟩, rfl, .inl ?_⟩
      · simpa [remember] using hw.size
      · intro other o hother hk
        rw [outcome?_remember] at hk
        split at hk
        · rename_i h
          rw [← h.1]
          exact (Option.some.inj hk).symm
        · exact hw.known other o hother hk
      · simp [Timing.host, hb]
    | false =>
      refine ⟨{ w with host := (t.ask id w.host).2 },
        ⟨.refl _, ⟨hw.size, hw.known, hw.elements, hw.fields⟩, hasked⟩, rfl, .inr ⟨?_, ?_⟩⟩
      · simp [Timing.host, hb]
      · exact ⟨w.host, .refl _, hb, .refl _⟩

/-- How waiting for a value that leads to `u` can go. -/
inductive Awaited (t : Timing σ) (deliver : Nat → Value) (n : Nat) (u : Value) (w w' : World σ) :
    Settling → Prop where
  | settled : Awaited t deliver n u w w' (.settled u)
  | waiting {id k : Nat} (hid : id < n) (hl : Leads deliver k (.pending id) u)
    (hno : t.Refuses id w.host w'.host) : Awaited t deliver n u w w' (.waiting (.pending id))

theorem settleWithin_spec (hd : Delivers deliver n) {k : Nat} {v u : Value}
    (hl : Leads deliver k v u) (hv : v.Below n) (hw : w.Sound deliver n) {fuel : Nat}
    (hf : k < fuel) :
    ∃ w' answer, settleWithin (t.host deliver call) fuel v w = (answer, w') ∧
      w.Passes t deliver n w' ∧ w'.heap = w.heap ∧ Awaited t deliver n u w w' answer := by
  induction hl generalizing fuel w with
  | @here v hp =>
    obtain ⟨fuel, rfl⟩ := Nat.exists_eq_succ_of_ne_zero (Nat.ne_of_gt hf)
    refine ⟨w, .settled v, ?_, .refl hw, rfl, .settled⟩
    cases v <;> first | rfl | cases hp
  | @next k id u h ih =>
    obtain ⟨fuel, rfl⟩ := Nat.exists_eq_succ_of_ne_zero (Nat.ne_of_gt (Nat.lt_of_le_of_lt (Nat.zero_le _) hf))
    have hid := hv id rfl
    obtain ⟨w₁, hpass, hheap, hpoll | ⟨hpoll, hno⟩⟩ := poll_spec (t := t) call hw hid
    · obtain ⟨w₂, answer, heq, hpass', hheap', hanswer⟩ :=
        ih (hd.below id hid) hpass.sound (Nat.lt_of_succ_lt_succ hf)
      refine ⟨w₂, answer, ?_, hpass.trans hpass', hheap'.trans hheap, ?_⟩
      · simp only [settleWithin, hpoll, heq]
      · cases hanswer with
        | settled => exact .settled
        | waiting hid hl hno => exact .waiting hid hl (hno.before hpass.reaches)
    · refine ⟨w₁, .waiting (.pending id), ?_, hpass, hheap, .waiting hid h.next hno⟩
      simp only [settleWithin, hpoll]

/-- Waiting for a value that leads to `u` ends with `u`, or stands at a pending value that was refused
and leads to `u`. -/
theorem settle_spec (hd : Delivers deliver n) {k : Nat} {v u : Value} (hl : Leads deliver k v u)
    (hv : v.Below n) (hw : w.Sound deliver n) :
    ∃ w' answer, w.settle (t.host deliver call) v = (answer, w') ∧
      w.Passes t deliver n w' ∧ w'.heap = w.heap ∧ Awaited t deliver n u w w' answer := by
  have hle := hl.length_le hd hv
  have hsize := hw.size
  exact settleWithin_spec call hd hl hv hw (by omega)

end World

end LatentExpr
