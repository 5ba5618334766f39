import LatentExpr.Proofs.Eval.Passive
import Mathlib.Data.Fintype.Pigeonhole
import Mathlib.Data.Nat.Nth

/-!
Running a process: it is polled again and again, and time passes whenever it waits. A passive process
ends under every fair timing, since otherwise one of finitely many pending values would be refused
infinitely often.
-/
namespace LatentExpr

/-- Poll a process until it ends, at most `turns` times after the first, with time passing between two
polls. -/
def Process.run {σ : Type} (s : Setting σ) (tick : σ → σ) :
    Nat → Process → World σ → Progress × World σ
  | 0, p, w => p.poll s w
  | turns + 1, p, w =>
    match p.poll s w with
    | (.waiting rest, w) => rest.run s tick turns { w with host := tick w.host }
    | ended => ended

def Progress.isWaiting : Progress → Bool
  | waiting _ => true
  | _ => false

namespace Timing
variable {σ : Type} {t : Timing σ}

/-- A fair timing does not refuse one of finitely many pending values in every poll. -/
theorem Fair.not_always_refused (hosts polled : Nat → σ) (hf : t.Fair (hosts 0)) {n : Nat}
    (hpoll : ∀ m, t.Reaches (hosts m) (polled m)) (htick : ∀ m, hosts (m + 1) = t.tick (polled m)) :
    ¬ ∀ m, ∃ id, id < n ∧ t.Refuses id (hosts m) (polled m) := by
  intro hall
  choose refused hlt hno using hall
  have hreach : ∀ m k, t.Reaches (hosts m) (hosts (m + k)) := by
    intro m k
    induction k with
    | zero => exact .refl _
    | succ k ih =>
      rw [← Nat.add_assoc, htick]
      exact (ih.trans (hpoll _)).tick
  -- Some value is refused in infinitely many polls, and these are the moments.
  obtain ⟨id, hinf⟩ := Finite.exists_infinite_fiber fun m => (⟨refused m, hlt m⟩ : Fin n)
  have hinf : {m | refused m = id}.Infinite := by
    refine (Set.infinite_coe_iff.1 hinf).mono fun m hm => ?_
    exact congrArg Fin.val hm
  let poll : Nat → Nat := Nat.nth fun m => refused m = id
  have hrefused : ∀ j, refused (poll j) = id := fun j => Nat.nth_mem_of_infinite hinf j
  have hlater : ∀ j, poll j < poll (j + 1) := fun j => Nat.nth_strictMono hinf (Nat.lt_succ_self j)
  let moments : Nat → σ := fun j => j.casesOn (hosts 0) fun j => hosts (poll j + 1)
  have hbefore : ∀ j, t.Reaches (moments j) (hosts (poll j)) := by
    intro j
    cases j with
    | zero =>
      have := hreach 0 (poll 0)
      rwa [Nat.zero_add] at this
    | succ j =>
      have := hreach (poll j + 1) (poll (j + 1) - (poll j + 1))
      rwa [Nat.add_sub_cancel' (hlater j)] at this
  refine hf id ⟨moments, rfl, fun j => ⟨polled (poll j), ?_, htick _⟩⟩
  have := hno (poll j)
  rw [hrefused] at this
  exact this.before (hbefore j)

end Timing

namespace Process
variable {σ : Type} {t : Timing σ} {deliver : Nat → Value} {n : Nat}
  {call : Nat → Value → List Value → World σ → Outcome × World σ}

/-- What is polled next when a process waits. -/
def resume (s : Setting σ) (tick : σ → σ) (x : Process × World σ) : Process × World σ :=
  match x.1.poll s x.2 with
  | (.waiting rest, w) => (rest, { w with host := tick w.host })
  | _ => x

theorem resume_of_waiting {s : Setting σ} {tick : σ → σ} {p rest : Process} {w w' : World σ}
    (h : p.poll s w = (.waiting rest, w')) :
    resume s tick (p, w) = (rest, { w' with host := tick w'.host }) := by
  simp only [resume, h]

theorem run_succ_of_waiting {s : Setting σ} {tick : σ → σ} {p rest : Process} {w w' : World σ}
    (h : p.poll s w = (.waiting rest, w')) (turns : Nat) :
    p.run s tick (turns + 1) w = rest.run s tick turns { w' with host := tick w'.host } := by
  simp only [run, h]

/-- A passive process that is never seen to end. -/
structure Endless (t : Timing σ) (deliver : Nat → Value) (n : Nat)
    (call : Nat → Value → List Value → World σ → Outcome × World σ) (x : Process × World σ) :
    Prop where
  passive : x.1.Passive n
  sound : x.2.Sound deliver n
  waits : ∀ turns, (x.1.run (t.setting deliver call) t.tick turns x.2).1.isWaiting = true

/-- One poll and the time after it: a pending value is refused, and what is left is endless again. -/
theorem Endless.turn (hd : Delivers deliver n) {x : Process × World σ}
    (hx : Endless t deliver n call x) :
    Endless t deliver n call (resume (t.setting deliver call) t.tick x) ∧
      ∃ c, t.Reaches x.2.host c ∧ (∃ id, id < n ∧ t.Refuses id x.2.host c) ∧
        (resume (t.setting deliver call) t.tick x).2.host = t.tick c := by
  obtain ⟨p, w⟩ := x
  obtain ⟨hp, hw, hwaits⟩ := hx
  obtain ⟨hpass, hleft⟩ := Passive.poll t call hd hp hw
  have hfirst := hwaits 0
  cases hpoll : p.poll (t.setting deliver call) w with
  | mk answer w' =>
    rw [run, hpoll] at hfirst
    rw [hpoll] at hpass hleft
    cases answer with
    | finished | failed => cases hfirst
    | waiting rest =>
      obtain ⟨hrest, hrefused⟩ := hleft rest rfl
      rw [resume_of_waiting hpoll]
      refine ⟨⟨hrest, ⟨hpass.sound.size, hpass.sound.known, hpass.sound.elements,
        hpass.sound.fields⟩, fun turns => ?_⟩, w'.host, hpass.reaches, hrefused, rfl⟩
      have hlater := hwaits (turns + 1)
      rwa [run_succ_of_waiting hpoll] at hlater

/-- A passive process ends after finitely many polls. -/
theorem Passive.ends (hd : Delivers deliver n) {p : Process} (hp : p.Passive n) {w : World σ}
    (hw : w.Sound deliver n) (hf : t.Fair w.host) :
    ∃ turns, (p.run (t.setting deliver call) t.tick turns w).1.isWaiting = false := by
  by_contra hnever
  have hnever : ∀ turns, (p.run (t.setting deliver call) t.tick turns w).1.isWaiting = true :=
    fun turns => Bool.eq_true_of_not_eq_false fun hends => hnever ⟨turns, hends⟩
  let state : Nat → Process × World σ := fun m =>
    (resume (t.setting deliver call) t.tick)^[m] (p, w)
  have hnext : ∀ m, state (m + 1) = resume (t.setting deliver call) t.tick (state m) :=
    fun m => Function.iterate_succ_apply' _ m _
  have hstate : ∀ m, Endless t deliver n call (state m) := by
    intro m
    induction m with
    | zero => exact ⟨hp, hw, hnever⟩
    | succ m ih =>
      rw [hnext]
      exact (ih.turn hd).1
  choose polled hreach hrefused htick using fun m => ((hstate m).turn hd).2
  have htick : ∀ m, (state (m + 1)).2.host = t.tick (polled m) := by
    intro m
    rw [hnext]
    exact htick m
  exact Timing.Fair.not_always_refused (fun m => (state m).2.host) polled hf hreach htick hrefused

end Process

end LatentExpr
