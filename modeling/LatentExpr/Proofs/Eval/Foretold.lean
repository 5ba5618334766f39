import LatentExpr.Proofs.Eval.Parallel
import Mathlib.Data.Set.Lattice
import Mathlib.Order.CompletePartialOrder

/-!
Processes whose end is foretold. While a process with pending values is polled again and again, the
other world has long been evaluated to its end: `F` is its final heap. What is left of the process is
`Foretold` to end as the other one did, using up as partners the containers of a set that nothing else
corresponds to yet. The two sides of a join have disjoint sets, which is why the order in which they get
on does not matter.
-/
namespace LatentExpr

/-- The containers that `h'` has and `h` does not. -/
def Heap.fresh (h h' : Heap) : Set Value := {v | v.Within h' 0 ∧ ¬ v.Within h 0}

namespace Heap
variable {a b c : Heap}

theorem fresh_subset (hbc : b.Grows c) : a.fresh b ⊆ a.fresh c :=
  fun _ hv => ⟨hbc.within hv.1, hv.2⟩

theorem fresh_subset_of_grows (hab : a.Grows b) : b.fresh c ⊆ a.fresh c :=
  fun _ hv => ⟨hv.1, fun hw => hv.2 (hab.within hw)⟩

theorem fresh_disjoint (a b c : Heap) : Disjoint (a.fresh b) (b.fresh c) :=
  Set.disjoint_left.2 fun _ hab hbc => hbc.2 hab.1

end Heap

namespace Agrees
variable {deliver : Nat → Value} {R : Correspondence} {h k : Heap} {v v' : Value}

theorem within (ha : Agrees deliver R h k) (hv : R v v') : v.Within h 0 ∧ v'.Within k 0 := by
  cases ha.paired hv with
  | plain hp => exact ⟨Value.within_of_isPlain hp h 0, Value.within_of_isPlain hp k 0⟩
  | array hi hj => exact ⟨hi, hj⟩
  | object hi hj => exact ⟨hi, hj⟩

end Agrees

/-- Nothing corresponds to a member of the set. -/
def Avoids (R : Correspondence) (A : Set Value) : Prop := ∀ v v', R v v' → v' ∉ A

/-- `S` is `R` with partners from `A` added. -/
structure Adds (R : Correspondence) (A : Set Value) (S : Correspondence) : Prop where
  le : R ≤ S
  new : ∀ v v', S v v' → R v v' ∨ v' ∈ A

section Sets
variable {R S T : Correspondence} {A B : Set Value}

theorem Avoids.mono (h : Avoids R A) (hBA : B ⊆ A) : Avoids R B :=
  fun v v' hv hB => h v v' hv (hBA hB)

theorem Avoids.union (hA : Avoids R A) (hB : Avoids R B) : Avoids R (A ∪ B) :=
  fun v v' hv h => h.elim (hA v v' hv) (hB v v' hv)

theorem Avoids.empty (R : Correspondence) : Avoids R ∅ := fun _ v' _ => Set.notMem_empty v'

/-- Adding partners from one set keeps away from a disjoint one. -/
theorem Adds.avoids (h : Adds R A S) (hR : Avoids R B) (hAB : Disjoint A B) : Avoids S B := by
  intro v v' hv hB
  rcases h.new v v' hv with hv | hA
  · exact hR v v' hv hB
  · exact Set.disjoint_left.1 hAB hA hB

theorem Adds.refl (R : Correspondence) (A : Set Value) : Adds R A R := ⟨le_rfl, fun _ _ => .inl⟩

theorem Adds.mono (h : Adds R A S) (hAB : A ⊆ B) : Adds R B S :=
  ⟨h.le, fun v v' hv => (h.new v v' hv).imp_right fun hA => hAB hA⟩

theorem Adds.trans (h : Adds R A S) (h' : Adds S B T) : Adds R (A ∪ B) T := by
  refine ⟨le_trans h.le h'.le, fun v v' hv => ?_⟩
  rcases h'.new v v' hv with hv | hB
  · exact (h.new v v' hv).imp_right .inl
  · exact .inr (.inr hB)

end Sets

/-- The value of a process that has finished. -/
def Progress.value? : Progress → Option Value
  | finished v => some v
  | _ => none

namespace Process

section Foretold
variable {σ : Type} (t : Timing σ) (deliver : Nat → Value)
  (call : Nat → Value → List Value → World σ → Outcome × World σ) (F : Heap)

/-- What is left of a process ends with a value that corresponds to the given one, or fails if there is
none. `R` is the correspondence so far, and `A` holds the containers that are still to get a partner. A
part of the process is still ahead if nothing of it was polled; its parallel process has ended in one
poll. -/
inductive Foretold : Correspondence → Set Value → Process → Option Value → Prop where
  | done {R : Correspondence} {v v' : Value} (hv : R v v') : Foretold R ∅ (.done v) (some v')
  | ahead {R S : Correspondence} {p q : Process} {w : World σ} (hp : p.Parallel deliver S q)
    (hSR : S ≤ R) (hS : S ≤ w.heap.anything) (hc : w.heap.Closed 0)
    (hF : (q.poll (t.setting deliver call) w).2.heap.Grows F) :
    Foretold R (w.heap.fresh (q.poll (t.setting deliver call) w).2.heap) p
      (q.poll (t.setting deliver call) w).1.value?
  | join {R : Correspondence} {A B C : Set Value} {left right : Process}
    {next : Value → Value → Process} {a b : Value} {o : Option Value}
    (hl : Foretold R A left (some a)) (hr : Foretold R B right (some b))
    (hn : ∀ S, R ≤ S → Sensible S → ∀ x y, S x a → S y b → Foretold S C (next x y) o)
    (hAB : Disjoint A B) (hC : Disjoint (A ∪ B) C) :
    Foretold R (A ∪ B ∪ C) (.join left right next) o
  | left {R : Correspondence} {A : Set Value} {left right : Process}
    {next : Value → Value → Process} (hl : Foretold R A left none) :
    Foretold R A (.join left right next) none
  | right {R : Correspondence} {A : Set Value} {left right : Process}
    {next : Value → Value → Process} (hr : Foretold R A right none) :
    Foretold R A (.join left right next) none

variable {t deliver call F}

theorem Foretold.mono {R S : Correspondence} {A : Set Value} {p : Process} {o : Option Value}
    (h : Foretold t deliver call F R A p o) (hRS : R ≤ S) : Foretold t deliver call F S A p o := by
  induction h generalizing S with
  | done hv => exact .done (hRS _ _ hv)
  | ahead hp hSR hS hc hF => exact .ahead hp (le_trans hSR hRS) hS hc hF
  | join hl hr hn hAB hC ihl ihr _ =>
    exact .join (ihl hRS) (ihr hRS) (fun T hST => hn T (le_trans hRS hST)) hAB hC
  | left _ ih => exact .left (ih hRS)
  | right _ ih => exact .right (ih hRS)

variable (t deliver call F)

/-- What a poll may answer if the end is foretold: `R` is the correspondence after the poll. -/
inductive Answers (R : Correspondence) (A : Set Value) : Option Value → Progress → Prop where
  | finished {v v' : Value} (hv : R v v') : Answers R A (some v') (.finished v)
  | failed (e : EvalError) : Answers R A none (.failed e)
  | waiting {B : Set Value} {rest : Process} {o : Option Value} (hBA : B ⊆ A)
    (hB : Avoids R B) (h : Foretold t deliver call F R B rest o) :
    Answers R A o (.waiting rest)

/-- Polling a process from any world that agrees with the final heap keeps what is foretold. New
partners come from `A`. -/
def Keeps (n : Nat) (R : Correspondence) (A : Set Value) (p : Process) (o : Option Value) : Prop :=
  ∀ w : World σ, Agrees deliver R w.heap F → Avoids R A → w.Sound deliver n → p.Passive n →
    ∃ S, Adds R A S ∧ Agrees deliver S (p.poll (t.setting deliver call) w).2.heap F ∧
      Answers t deliver call F S A o (p.poll (t.setting deliver call) w).1

variable {t deliver call F} {n : Nat} {R : Correspondence} {A B C : Set Value} {left right : Process}
  {next : Value → Value → Process} {a b : Value} {o : Option Value}

theorem Answers.mono {answer : Progress} (h : Answers t deliver call F R A o answer) (hAB : A ⊆ B) :
    Answers t deliver call F R B o answer := by
  cases h with
  | finished hv => exact .finished hv
  | failed e => exact .failed e
  | waiting hsub hR hf => exact .waiting (hsub.trans hAB) hR hf

theorem Keeps.mono {p : Process} (h : Keeps t deliver call F n R A p o) (hAB : A ⊆ B) :
    Keeps t deliver call F n R B p o := by
  intro w ha havoid hw hp
  obtain ⟨S, hS, haS, hans⟩ := h w ha (havoid.mono hAB) hw hp
  exact ⟨S, hS.mono hAB, haS, hans.mono hAB⟩

/-- What is left of a side of a join is foretold to end as that side was, with partners that are still free. -/
theorem Answers.leaves {progress : Progress} {p : Process} (h : Answers t deliver call F R A o progress)
    (hp : progress.Leaves p) : ∃ B ⊆ A, Avoids R B ∧ Foretold t deliver call F R B p o := by
  cases h with
  | finished hv =>
    cases hp
    exact ⟨∅, Set.empty_subset A, .empty R, .done hv⟩
  | failed => cases hp
  | waiting hBA hB hf =>
    cases hp
    exact ⟨_, hBA, hB, hf⟩

/-! ### Joins -/

/-- A join keeps what is foretold of it if its parts do. -/
theorem Keeps.join (hd : Delivers deliver n) (hl : Keeps t deliver call F n R A left (some a))
    (hr : ∀ S, R ≤ S → Keeps t deliver call F n S B right (some b))
    (hn : ∀ S, R ≤ S → Sensible S → ∀ x y, S x a → S y b → Foretold t deliver call F S C (next x y) o)
    (hk : ∀ S, R ≤ S → Sensible S → ∀ x y, S x a → S y b → Keeps t deliver call F n S C (next x y) o)
    (hAB : Disjoint A B) (hC : Disjoint (A ∪ B) C) :
    Keeps t deliver call F n R (A ∪ B ∪ C) (.join left right next) o := by
  intro w ha havoid hw hp
  cases hp with
  | join hpl hpr hpn =>
  have hRAB := havoid.mono Set.subset_union_left
  have hpass := (Passive.poll t call hd hpl hw).1
  obtain ⟨S, hS, haS, hansS⟩ := hl w ha (hRAB.mono Set.subset_union_left) hw hpl
  have hSB : Avoids S B := hS.avoids (hRAB.mono Set.subset_union_right) hAB
  cases hleft : left.poll (t.setting deliver call) w with
  | mk l w₁ =>
  rw [hleft] at hpass haS hansS
  have hpass' := (Passive.poll t call hd hpr hpass.sound).1
  obtain ⟨T, hT, haT, hansT⟩ := hr S hS.le w₁ haS hSB hpass.sound hpr
  cases hright : right.poll (t.setting deliver call) w₁ with
  | mk r w₂ =>
  rw [hright] at hpass' haT hansT
  have hRT : Adds R (A ∪ B) T := hS.trans hT
  have hTC : Avoids T C := hRT.avoids (havoid.mono Set.subset_union_right) hC
  cases poll_join next hleft hright with
  | leftFailed => cases hansS
  | rightFailed => cases hansT
  | goesOn x y heq =>
    cases hansS with
    | finished hx =>
    cases hansT with
    | finished hy =>
    obtain ⟨U, hU, haU, hansU⟩ :=
      hk T hRT.le haT.sensible x y (hT.le _ _ hx) hy w₂ haT hTC hpass'.sound (hpn x y)
    rw [heq]
    exact ⟨U, hRT.trans hU, haU, hansU.mono Set.subset_union_right⟩
  | waits hrestl hrestr _ heq =>
    obtain ⟨A', hA, hSA, hf⟩ := hansS.leaves hrestl
    obtain ⟨B', hB, hTB, hf'⟩ := hansT.leaves hrestr
    have hTA : Avoids T A' := hT.avoids hSA (hAB.symm.mono_right hA)
    have hsub : A' ∪ B' ⊆ A ∪ B := Set.union_subset_union hA hB
    have hnext := fun U hTU => hn U (le_trans hRT.le hTU)
    rw [heq]
    exact ⟨T, hRT.mono Set.subset_union_left, haT,
      .waiting (Set.union_subset_union_left C hsub) ((hTA.union hTB).union hTC)
        (.join (hf.mono hT.le) hf' hnext (hAB.mono hA hB) (hC.mono_left hsub))⟩

/-- A join fails when its left side is foretold to fail, whatever the right side does. -/
theorem Keeps.join_left (hd : Delivers deliver n) (hl : Keeps t deliver call F n R A left none) :
    Keeps t deliver call F n R A (.join left right next) none := by
  intro w ha havoid hw hp
  cases hp with
  | join hpl hpr hpn =>
  have hpass := (Passive.poll t call hd hpl hw).1
  obtain ⟨S, hS, haS, hansS⟩ := hl w ha havoid hw hpl
  cases hleft : left.poll (t.setting deliver call) w with
  | mk l w₁ =>
  rw [hleft] at hpass haS hansS
  have hpass' := (Passive.poll t call hd hpr hpass.sound).1
  cases hright : right.poll (t.setting deliver call) w₁ with
  | mk r w₂ =>
  rw [hright] at hpass'
  have haS' := haS.grow hpass'.grows (.refl F)
  cases poll_join next hleft hright with
  | leftFailed e heq =>
    rw [heq]
    exact ⟨S, hS, haS, .failed e⟩
  | rightFailed e heq =>
    rw [heq]
    exact ⟨S, hS, haS', .failed e⟩
  | goesOn => cases hansS
  | waits hrestl _ _ heq =>
    obtain ⟨B, hB, hSB, hf⟩ := hansS.leaves hrestl
    rw [heq]
    exact ⟨S, hS, haS', .waiting hB hSB (.left hf)⟩

/-- A join fails when its right side is foretold to fail, whatever the left side does. -/
theorem Keeps.join_right (hd : Delivers deliver n) (hr : Keeps t deliver call F n R A right none) :
    Keeps t deliver call F n R A (.join left right next) none := by
  intro w ha havoid hw hp
  cases hp with
  | join hpl hpr hpn =>
  have hpass := (Passive.poll t call hd hpl hw).1
  cases hleft : left.poll (t.setting deliver call) w with
  | mk l w₁ =>
  rw [hleft] at hpass
  have ha := ha.grow hpass.grows (.refl F)
  obtain ⟨S, hS, haS, hansS⟩ := hr w₁ ha havoid hpass.sound hpr
  cases hright : right.poll (t.setting deliver call) w₁ with
  | mk r w₂ =>
  rw [hright] at haS hansS
  cases poll_join next hleft hright with
  | leftFailed e heq =>
    rw [heq]
    exact ⟨R, .refl R A, ha, .failed e⟩
  | rightFailed e heq =>
    rw [heq]
    exact ⟨S, hS, haS, .failed e⟩
  | goesOn => cases hansS
  | waits _ hrestr _ heq =>
    obtain ⟨B, hB, hSB, hf⟩ := hansS.leaves hrestr
    rw [heq]
    exact ⟨S, hS, haS, .waiting hB hSB (.right hf)⟩

/-! ### Processes of which nothing was polled -/

/-- The correspondence of the values that are in the heap `k` already. -/
def upTo (R : Correspondence) (k : Heap) : Correspondence := fun v v' => R v v' ∧ v'.Within k 0

theorem upTo_le (R : Correspondence) (k : Heap) : upTo R k ≤ R := fun _ _ hv => hv.1

theorem sensible_upTo (hR : Sensible R) (k : Heap) : Sensible (upTo R k) :=
  ⟨fun hp => ⟨hR.plain hp, Value.within_of_isPlain hp k 0⟩, fun hv => hR.alike hv.1⟩

theorem upTo_le_anything (hR : Sensible R) (k : Heap) : upTo R k ≤ k.anything :=
  fun _ _ hv => ⟨hR.alike hv.1, hv.2⟩

theorem le_upTo {S : Correspondence} {k : Heap} (hSR : S ≤ R) (hS : S ≤ k.anything) : S ≤ upTo R k :=
  fun _ _ hv => ⟨hSR _ _ hv, (hS _ _ hv).2⟩

variable (t deliver call F)

/-- What is foretold of the left process of a pair is kept when it is polled for the first time, as long as all
that `S` relates is in the heap that the right one starts from. -/
def KeepsAhead (n : Nat) (S : Correspondence) (p q : Process) : Prop :=
  ∀ ⦃R : Correspondence⦄ ⦃v : World σ⦄, S ≤ R → S ≤ v.heap.anything → v.heap.Closed 0 → v.heap.Grows F →
    (q.poll (t.setting deliver call) v).2.heap.Grows F →
      Keeps t deliver call F n R (v.heap.fresh (q.poll (t.setting deliver call) v).2.heap) p
        (q.poll (t.setting deliver call) v).1.value?

/-- The same of continuations on the values related by `rel T`, for every correspondence `T` that `S` grows
into. -/
def KeepsOn (n : Nat) (S : Correspondence) (rel : Correspondence → Value → Value → Prop)
    (next next' : Value → Process) : Prop :=
  ∀ T, S ≤ T → Sensible T → ∀ x x', rel T x x' → KeepsAhead t deliver call F n T (next x) (next' x')

variable {t deliver call F} {S : Correspondence} {rel : Correspondence → Value → Value → Prop}
  {next next' : Value → Process}

/-- The right process goes on in the same heap. -/
theorem KeepsOn.go_on {v : World σ} {x x' : Value} (hk : KeepsOn t deliver call F n S rel next next') (hSR : S ≤ R)
    (hS : S ≤ v.heap.anything) (hR : Sensible R) (hc : v.heap.Closed 0) (hg : v.heap.Grows F)
    (hx : rel (upTo R v.heap) x x') (hF : ((next' x').poll (t.setting deliver call) v).2.heap.Grows F) :
    Keeps t deliver call F n R (v.heap.fresh ((next' x').poll (t.setting deliver call) v).2.heap) (next x)
      ((next' x').poll (t.setting deliver call) v).1.value? :=
  hk _ (le_upTo hSR hS) (sensible_upTo hR _) x x' hx (upTo_le R _) (upTo_le_anything hR _) hc hg hF

/-- A fresh container on either side becomes the partner of the other, and what goes on with them keeps
what is foretold. The right one is made in the heap of `v` and leaves the heap of `u`. -/
theorem KeepsOn.go_on_fresh {v u w w' : World σ} {x y : Value} (hn : GoesOn deliver S (fun T => T) next next')
    (hk : KeepsOn t deliver call F n S (fun T => T) next next') (hSR : S ≤ R) (hS : S ≤ v.heap.anything)
    (hv : v.heap.Grows u.heap) (hc : u.heap.Closed 0)
    (hF : ((next' y).poll (t.setting deliver call) u).2.heap.Grows F) (ha : Agrees deliver R w.heap F)
    (havoid : Avoids R (v.heap.fresh ((next' y).poll (t.setting deliver call) u).2.heap))
    (hpass : w.Passes t deliver n w') (hp : (next x).Passive n)
    (hxy : u.heap.Grows F → Paired deliver R w'.heap F x y) (hx : ¬ x.Within w.heap 0)
    (hy : ¬ y.Within v.heap 0) (hy' : y.Within u.heap 0) :
    ∃ T, Adds R (v.heap.fresh ((next' y).poll (t.setting deliver call) u).2.heap) T ∧
      Agrees deliver T ((next x).poll (t.setting deliver call) w').2.heap F ∧
      Answers t deliver call F T (v.heap.fresh ((next' y).poll (t.setting deliver call) u).2.heap)
        ((next' y).poll (t.setting deliver call) u).1.value? ((next x).poll (t.setting deliver call) w').1 := by
  have hends := (hn _ (Heap.le_anything_of_grows hS hv) (Heap.sensible_anything _) y y
    (Heap.anything_self hy')).ends t call (w := u) le_rfl hc
  have hg : u.heap.Grows F := hends.grows.trans hF
  have hgrows := hends.grows
  generalize hG : ((next' y).poll (t.setting deliver call) u).2.heap = G at havoid hgrows
  have hyG : y ∈ v.heap.fresh G := ⟨hgrows.within hy', hy⟩
  have hU : Adds R (v.heap.fresh G) fun a b => R a b ∨ (a = x ∧ b = y) :=
    ⟨fun _ _ => .inl, fun a b hab => hab.imp_right fun h : a = x ∧ b = y => h.2 ▸ hyG⟩
  have haU : Agrees deliver (fun a b => R a b ∨ (a = x ∧ b = y)) w'.heap F :=
    (ha.grow hpass.grows (.refl F)).insert (hxy hg) (fun b hb => hx (ha.within hb).1)
      fun a ha => havoid a y ha hyG
  have hUG : Avoids (fun a b => R a b ∨ (a = x ∧ b = y)) (u.heap.fresh G) := by
    rintro a b (hab | ⟨-, rfl⟩) hb
    · exact havoid a b hab (Heap.fresh_subset_of_grows hv hb)
    · exact hb.2 hy'
  have hST : S ≤ upTo (fun a b => R a b ∨ (a = x ∧ b = y)) u.heap := fun a b hab =>
    ⟨.inl (hSR _ _ hab), hv.within (hS _ _ hab).2⟩
  have hkeeps := hk _ hST (sensible_upTo haU.sensible _) x y ⟨.inr ⟨rfl, rfl⟩, hy'⟩ (upTo_le _ _)
    (upTo_le_anything haU.sensible _) hc hg hF
  rw [hG] at hkeeps
  obtain ⟨T, hT, haT, hans⟩ := hkeeps w' haU hUG hpass.sound hp
  have hsub := Heap.fresh_subset_of_grows (c := G) hv
  exact ⟨T, (hU.trans hT).mono (Set.union_subset Set.Subset.rfl hsub), haT, hans.mono hsub⟩

/-! One lemma for each pair of processes. -/

theorem KeepsAhead.done {v v' : Value} (hv : S v v') : KeepsAhead t deliver call F n S (.done v) (.done v') := by
  intro R u hSR _ _ _ _ w ha _ _ _
  exact ⟨R, .refl R _, ha, .finished (hSR _ _ hv)⟩

theorem KeepsAhead.fail (e e' : EvalError) : KeepsAhead t deliver call F n S (.fail e) (.fail e') := by
  intro R u _ _ _ _ _ w ha _ _ _
  exact ⟨R, .refl R _, ha, .failed e⟩

/-- The left process may have to wait, and then what was foretold of it is so still. -/
theorem KeepsAhead.settle {x x' : Value} (hd : Delivers deliver n) (hx : Eventually deliver S x x')
    (hn : GoesOn deliver S (fun T => T) next next') (hk : KeepsOn t deliver call F n S (fun T => T) next next') :
    KeepsAhead t deliver call F n S (.settle x next) (.settle x' next') := by
  intro R v hSR hS hc hg hF w ha havoid hw hp
  cases hp with
  | settle hbelow hpn =>
  obtain ⟨k, u, hl, hu⟩ := hx
  have hpoll : (Process.settle x' next').poll (t.setting deliver call) v =
      (next' x').poll (t.setting deliver call) v := by
    simp only [poll, v.settle_of_not_pending (t.setting deliver call).host
      (Value.isPending_of_within (hS _ _ hu).2)]
  obtain ⟨w₁, answer, heq, hpass, hheap, hanswer⟩ := World.settle_spec call hd hl hbelow hw
  have heq : w.settle (t.setting deliver call).host x = (answer, w₁) := heq
  rw [← hheap] at ha
  cases hanswer with
  | settled =>
    rw [hpoll] at hF havoid ⊢
    simp only [poll, heq]
    exact hk.go_on hSR hS ha.sensible hc hg ⟨hSR _ _ hu, (hS _ _ hu).2⟩ hF w₁ ha havoid hpass.sound
      (hpn u hl.isPending_eq_false)
  | @waiting id k hid hl hno =>
    have hwait : (Process.settle x next).poll (t.setting deliver call) w =
      (.waiting (.settle (.pending id) next), w₁) := by simp only [poll, heq]
    rw [hwait]
    exact ⟨R, .refl R _, ha, .waiting Set.Subset.rfl havoid
      (.ahead (.settle ⟨_, u, hl, hu⟩ hn) hSR hS hc hF)⟩

theorem KeepsAhead.read {target target' : Value} {key : String} (ht : S target target')
    (hk : KeepsOn t deliver call F n S (Eventually deliver) next next') :
    KeepsAhead t deliver call F n S (.read target key next) (.read target' key next') := by
  intro R v hSR hS hc hg hF w ha havoid hw hp
  cases hp with
  | read hpn =>
  have hT : Agrees deliver (upTo R v.heap) w.heap v.heap := ha.restrict hc hg
  rcases hT.getProperty_agrees (le_upTo hSR hS _ _ ht) key with ⟨e, hx, hx'⟩ | ⟨x, x', hx, hx', hxx⟩
  · simp only [poll, hx, hx']
    exact ⟨R, .refl R _, ha, .failed e⟩
  · simp only [poll, hx, hx'] at hF havoid ⊢
    have hbelow : x.Below n := by
      refine w.heap.forall_getProperty ?_ hw.elements hw.fields hx
      exact fun _ hp => Value.below_of_not_pending (Value.isPending_of_isPlain hp)
    exact hk.go_on hSR hS ha.sensible hc hg hxx hF w ha havoid hw (hpn x hbelow)

theorem KeepsAhead.keyOf {k k' : Value} {next next' : String → Process} (hkk : S k k')
    (hk : ∀ T, S ≤ T → Sensible T → ∀ key, KeepsAhead t deliver call F n T (next key) (next' key)) :
    KeepsAhead t deliver call F n S (.keyOf k next) (.keyOf k' next') := by
  intro R v hSR hS hc hg hF w ha havoid hw hp
  cases hp with
  | keyOf hpn =>
  have hT : Agrees deliver (upTo R v.heap) w.heap v.heap := ha.restrict hc hg
  have hkey : w.heap.propertyKey k = v.heap.propertyKey k' := hT.text_eq (le_upTo hSR hS _ _ hkk)
  simp only [poll, hkey] at hF havoid ⊢
  exact hk _ (le_upTo hSR hS) hT.sensible _ (upTo_le R _) (upTo_le_anything ha.sensible _) hc hg hF
    w ha havoid hw (hpn _)

theorem KeepsAhead.binary {op : BinaryOp} {a a' b b' : Value} (haa : S a a') (hbb : S b b')
    (hk : KeepsOn t deliver call F n S (fun T => T) next next') :
    KeepsAhead t deliver call F n S (.binary op a b next) (.binary op a' b' next') := by
  intro R v hSR hS hc hg hF w ha havoid hw hp
  cases hp with
  | binary hpn =>
  have hT : Agrees deliver (upTo R v.heap) w.heap v.heap := ha.restrict hc hg
  have hop := hT.binary_eq op (le_upTo hSR hS _ _ haa) (le_upTo hSR hS _ _ hbb)
  cases ho : op.apply v.heap a' b' with
  | error e =>
    simp only [poll, Timing.applyBinary_setting, hop, ho]
    exact ⟨R, .refl R _, ha, .failed e⟩
  | ok x =>
    simp only [poll, Timing.applyBinary_setting, hop, ho] at hF havoid ⊢
    have hx := op.isPlain_apply _ _ _ ho
    exact hk.go_on hSR hS ha.sensible hc hg (hT.plain hx) hF w ha havoid hw
      (hpn x (Value.isPending_of_isPlain hx))

theorem KeepsAhead.unary {op : UnaryOp} {a a' : Value} (haa : S a a')
    (hk : KeepsOn t deliver call F n S (fun T => T) next next') :
    KeepsAhead t deliver call F n S (.unary op a next) (.unary op a' next') := by
  intro R v hSR hS hc hg hF w ha havoid hw hp
  cases hp with
  | unary hpn =>
  have hT : Agrees deliver (upTo R v.heap) w.heap v.heap := ha.restrict hc hg
  have hop := hT.unary_eq op (le_upTo hSR hS _ _ haa)
  cases ho : op.apply v.heap a' with
  | error e =>
    simp only [poll, Timing.applyUnary_setting, hop, ho]
    exact ⟨R, .refl R _, ha, .failed e⟩
  | ok x =>
    simp only [poll, Timing.applyUnary_setting, hop, ho] at hF havoid ⊢
    have hx := op.isPlain_apply _ _ ho
    exact hk.go_on hSR hS ha.sensible hc hg (hT.plain hx) hF w ha havoid hw
      (hpn x (Value.isPending_of_isPlain hx))

theorem KeepsAhead.newArray {es es' : List Value} (he : List.Forall₂ S es es')
    (hn : GoesOn deliver S (fun T => T) next next') (hk : KeepsOn t deliver call F n S (fun T => T) next next') :
    KeepsAhead t deliver call F n S (.newArray es next) (.newArray es' next') := by
  intro R v hSR hS hc _ hF w ha havoid hw hp
  cases hp with
  | newArray hes hpn =>
  have hpass : w.Passes t deliver n { w with heap := (w.heap.newArray es.toArray).2 } := .newArray hw hes
  refine hk.go_on_fresh (u := { v with heap := (v.heap.newArray es'.toArray).2 }) hn hSR hS
    (v.heap.grows_newArray _) (hc.newArray (Heap.within_of_forall₂ hS he)) hF ha havoid hpass (hpn _ rfl)
    (fun hg => ?_) (Nat.lt_irrefl _) (Nat.lt_irrefl _) (v.heap.newArray_within _)
  exact .newArray (he.imp fun _ _ hr => hSR _ _ hr) hg

theorem KeepsAhead.newObject {fs fs' : Fields} (hf : FieldsMatch S fs fs')
    (hn : GoesOn deliver S (fun T => T) next next') (hk : KeepsOn t deliver call F n S (fun T => T) next next') :
    KeepsAhead t deliver call F n S (.newObject fs next) (.newObject fs' next') := by
  intro R v hSR hS hc _ hF w ha havoid hw hp
  cases hp with
  | newObject hfs hpn =>
  have hpass : w.Passes t deliver n { w with heap := (w.heap.newObject fs).2 } := .newObject hw hfs
  refine hk.go_on_fresh (u := { v with heap := (v.heap.newObject fs').2 }) hn hSR hS
    (v.heap.grows_newObject _) (hc.newObject (Heap.within_of_fieldsMatch hS hf)) hF ha havoid hpass (hpn _ rfl)
    (fun hg => ?_) (Nat.lt_irrefl _) (Nat.lt_irrefl _) (v.heap.newObject_within _)
  exact .newObject (hf.imp fun _ _ hr => ⟨hr.1, ha.eventually (hSR _ _ hr.2)⟩) hg

/-- The partners of the left side are made before those of the right side, and those of what goes on with both
after them. -/
theorem KeepsAhead.join {l l' r r' : Process} {next next' : Value → Value → Process} (hd : Delivers deliver n)
    (hl : l.Parallel deliver S l') (hr : r.Parallel deliver S r')
    (hn : ∀ T, S ≤ T → Sensible T → ∀ a a' b b', T a a' → T b b' → (next a b).Parallel deliver T (next' a' b'))
    (hkl : KeepsAhead t deliver call F n S l l') (hkr : KeepsAhead t deliver call F n S r r')
    (hkn : ∀ T, S ≤ T → Sensible T → ∀ a a' b b', T a a' → T b b' →
      KeepsAhead t deliver call F n T (next a b) (next' a' b')) :
    KeepsAhead t deliver call F n S (.join l r next) (.join l' r' next') := by
  intro R v hSR hS hc hg hF
  have hkl := hkl hSR hS hc hg
  obtain ⟨hgl, hcl, hal⟩ := hl.ends t call hS hc
  cases hpl : l'.poll (t.setting deliver call) v with
  | mk answer v₁ =>
  rw [hpl] at hgl hcl hal hkl
  rcases hal with ⟨a, rfl, haw⟩ | ⟨e, rfl⟩
  case inr =>
    simp only [poll, hpl] at hF ⊢
    exact .join_left hd (hkl hF)
  have hS₁ := Heap.le_anything_of_grows hS hgl
  have hkr := fun {R : Correspondence} (hSR : S ≤ R) => hkr hSR hS₁ hcl
  obtain ⟨hgr, hcr, har⟩ := hr.ends t call hS₁ hcl
  cases hpr : r'.poll (t.setting deliver call) v₁ with
  | mk answer v₂ =>
  rw [hpr] at hgr hcr har hkr
  rcases har with ⟨b, rfl, hbw⟩ | ⟨e, rfl⟩
  case inr =>
    simp only [poll, hpl, hpr] at hF ⊢
    exact (Keeps.join_right hd (hkr hSR (hgr.trans hF) hF)).mono (Heap.fresh_subset_of_grows hgl)
  have hS₂ := Heap.le_anything_of_grows hS₁ hgr
  have hends := (hn _ hS₂ (Heap.sensible_anything _) a a b b
    (Heap.anything_self (hgr.within haw)) (Heap.anything_self hbw)).ends t call le_rfl hcr
  simp only [poll, hpl, hpr] at hF ⊢
  have hg₂ : v₂.heap.Grows F := hends.grows.trans hF
  have hg₁ : v₁.heap.Grows F := hgr.trans hg₂
  have hsub : v.heap.fresh v₁.heap ∪ v₁.heap.fresh v₂.heap ⊆ v.heap.fresh v₂.heap :=
    Set.union_subset (Heap.fresh_subset hgr) (Heap.fresh_subset_of_grows hgl)
  have hsub' := Set.union_subset (hsub.trans (Heap.fresh_subset hends.grows))
    (Heap.fresh_subset_of_grows (hgl.trans hgr))
  refine (Keeps.join hd (hkl hg₁) (fun T hT => hkr (le_trans hSR hT) hg₁ hg₂) (fun T hRT hT x y hx hy => ?_)
    (fun T hRT hT x y hx hy => ?_) (Heap.fresh_disjoint _ _ _)
    ((Heap.fresh_disjoint _ _ _).mono_left hsub)).mono hsub'
  · have hnext := hn (upTo T v₂.heap) (le_upTo (le_trans hSR hRT) hS₂) (sensible_upTo hT _)
      x a y b ⟨hx, hgr.within haw⟩ ⟨hy, hbw⟩
    exact .ahead hnext (upTo_le T _) (upTo_le_anything hT _) hcr hF
  · exact hkn (upTo T v₂.heap) (le_upTo (le_trans hSR hRT) hS₂) (sensible_upTo hT _)
      x a y b ⟨hx, hgr.within haw⟩ ⟨hy, hbw⟩ (upTo_le T _) (upTo_le_anything hT _) hcr hg₂ hF

theorem Parallel.keepsAhead (hd : Delivers deliver n) {p q : Process} (hp : p.Parallel deliver S q) :
    KeepsAhead t deliver call F n S p q := by
  induction hp with
  | done hv => exact .done hv
  | fail e e' => exact .fail e e'
  | settle hx hn ih => exact .settle hd hx hn ih
  | read ht _ ih => exact .read ht ih
  | keyOf hk _ ih => exact .keyOf hk ih
  | newArray he hn ih => exact .newArray he hn ih
  | newObject hf hn ih => exact .newObject hf hn ih
  | binary ha hb _ ih => exact .binary ha hb ih
  | unary ha _ ih => exact .unary ha ih
  | join hl hr hn ihl ihr ihn => exact .join hd hl hr hn ihl ihr ihn

/-- Whatever was polled before, a poll keeps what is foretold. -/
theorem Foretold.keeps (hd : Delivers deliver n) {p : Process}
    (h : Foretold t deliver call F R A p o) : Keeps t deliver call F n R A p o := by
  suffices ∀ S, R ≤ S → Keeps t deliver call F n S A p o from this R le_rfl
  induction h with
  | done hv =>
    intro S hRS w ha _ _ _
    exact ⟨S, .refl S _, ha, .finished (hRS _ _ hv)⟩
  | ahead hp hSR hS hc hF =>
    exact fun T hRT =>
      hp.keepsAhead hd (le_trans hSR hRT) hS hc ((hp.ends t call hS hc).grows.trans hF) hF
  | join hl hr hn hAB hC ihl ihr ihn =>
    intro S hRS
    exact .join hd (ihl S hRS) (fun T hST => ihr T (le_trans hRS hST))
      (fun T hST hT x y hx hy => hn T (le_trans hRS hST) hT x y hx hy)
      (fun T hST hT x y hx hy => ihn T (le_trans hRS hST) hT x y hx hy T le_rfl) hAB hC
  | left _ ih => exact fun S hRS => .join_left hd (ih S hRS)
  | right _ ih => exact fun S hRS => .join_right hd (ih S hRS)

end Foretold

end Process

end LatentExpr
