import LatentExpr.Proofs.Eval.Foretold

/-!
Processes that only read. Such a process may make containers and go on with them, but it writes to none, so each
poll leaves the heap as it was with the containers that the poll made. Those are kept in a record with what they
were made of (`Creations`): `Reads` lets a process ask for containers in the record, `Reads.poll` adds what one
poll makes to the record, and `Turns.reads` does so for all the polls of an evaluation, whatever others do in
between.
-/
namespace LatentExpr

/-! ### Creations -/

/-- What a container is made of. -/
inductive Contents where
  | elements (vs : List Value)
  | fields (fs : Fields)

/-- A record of containers and what they were made of. -/
abbrev Creations := Set (Value × Contents)

namespace Heap
variable {a b c h h' : Heap} {v : Value} {made : Contents}

/-- What a container holds. -/
inductive Consists (h : Heap) : Value → Contents → Prop where
  | array {id : Nat} {vs : List Value} (hid : (h.elements id).toList = vs) : Consists h (.array id) (.elements vs)
  | object {id : Nat} {fs : Fields} (hid : h.fields id = fs) : Consists h (.object id) (.fields fs)

theorem Grows.consists_iff (hg : h.Grows h') (hv : v.Within h 0) : h'.Consists v made ↔ h.Consists v made := by
  constructor
  · rintro (hid | hid)
    · exact .array (hg.elements hv ▸ hid)
    · exact .object (hg.fields hv ▸ hid)
  · rintro (hid | hid)
    · exact .array ((hg.elements hv).symm ▸ hid)
    · exact .object ((hg.fields hv).symm ▸ hid)

/-- The containers that a heap has got, and what they hold. -/
def created (h h' : Heap) : Creations := {e | e.1 ∈ h.fresh h' ∧ h'.Consists e.1 e.2}

/-- What a heap gets in two steps. -/
theorem created_union (hab : a.Grows b) (hbc : b.Grows c) : a.created b ∪ b.created c = a.created c := by
  ext ⟨v, made⟩
  constructor
  · rintro (⟨hfresh, hmade⟩ | ⟨hfresh, hmade⟩)
    · exact ⟨fresh_subset hbc hfresh, (hbc.consists_iff hfresh.1).2 hmade⟩
    · exact ⟨fresh_subset_of_grows hab hfresh, hmade⟩
  · rintro ⟨hfresh, hmade⟩
    by_cases hv : v.Within b 0
    · exact .inl ⟨⟨hv, hfresh.2⟩, (hbc.consists_iff hv).1 hmade⟩
    · exact .inr ⟨⟨hfresh.1, hv⟩, hmade⟩

theorem created_subset (hab : a.Grows b) (hbc : b.Grows c) : a.created b ⊆ a.created c :=
  created_union hab hbc ▸ Set.subset_union_left

theorem created_subset_of_grows (hab : a.Grows b) (hbc : b.Grows c) : b.created c ⊆ a.created c :=
  created_union hab hbc ▸ Set.subset_union_right

theorem created_self (h : Heap) : h.created h = ∅ := by
  ext e
  simp [created, fresh]

theorem newArray_mem_created (h : Heap) (vs : List Value) :
    ((h.newArray vs.toArray).1, .elements vs) ∈ h.created (h.newArray vs.toArray).2 := by
  have hmade : ((h.newArray vs.toArray).2.elements h.arrays.size).toList = vs := by
    rw [elements_newArray, if_pos rfl]
  exact ⟨⟨h.newArray_within _, Nat.lt_irrefl _⟩, .array hmade⟩

theorem newObject_mem_created (h : Heap) (fs : Fields) :
    ((h.newObject fs).1, .fields fs) ∈ h.created (h.newObject fs).2 := by
  have hmade : (h.newObject fs).2.fields h.objects.size = fs := by
    rw [fields_newObject, if_pos rfl]
  exact ⟨⟨h.newObject_within _, Nat.lt_irrefl _⟩, .object hmade⟩

end Heap

/-! ### Processes -/

/-- What is asked of the value of a process, given the containers that were made. -/
abbrev Asked := Creations → Value → Prop

/-- Nothing is asked. -/
def Asked.nothing : Asked := fun _ _ => True

/-- A process that writes nothing and calls nothing, whatever it reads, and that ends with a value of which
something holds if it ends with one. It goes on with containers that were made, and more may be made before it
does. -/
inductive Process.Reads : Asked → Creations → Process → Prop where
  | done {Q : Asked} {made : Creations} {v : Value} (hv : Q made v) : Reads Q made (.done v)
  | fail {Q : Asked} {made : Creations} (e : EvalError) : Reads Q made (.fail e)
  | settle {Q : Asked} {made : Creations} {v : Value} {next : Value → Process}
    (hn : ∀ more, made ⊆ more → ∀ u, Reads Q more (next u)) : Reads Q made (.settle v next)
  | read {Q : Asked} {made : Creations} {target : Value} {key : String} {next : Value → Process}
    (hn : ∀ more, made ⊆ more → ∀ v, Reads Q more (next v)) : Reads Q made (.read target key next)
  | keyOf {Q : Asked} {made : Creations} {v : Value} {next : String → Process}
    (hn : ∀ more, made ⊆ more → ∀ key, Reads Q more (next key)) : Reads Q made (.keyOf v next)
  | newArray {Q : Asked} {made : Creations} {vs : List Value} {next : Value → Process}
    (hn : ∀ more, made ⊆ more → ∀ v, (v, .elements vs) ∈ more → Reads Q more (next v)) :
    Reads Q made (.newArray vs next)
  | newObject {Q : Asked} {made : Creations} {fs : Fields} {next : Value → Process}
    (hn : ∀ more, made ⊆ more → ∀ v, (v, .fields fs) ∈ more → Reads Q more (next v)) :
    Reads Q made (.newObject fs next)
  | binary {Q : Asked} {made : Creations} {op : BinaryOp} {a b : Value} {next : Value → Process}
    (hn : ∀ more, made ⊆ more → ∀ v, Reads Q more (next v)) : Reads Q made (.binary op a b next)
  | unary {Q : Asked} {made : Creations} {op : UnaryOp} {v : Value} {next : Value → Process}
    (hn : ∀ more, made ⊆ more → ∀ u, Reads Q more (next u)) : Reads Q made (.unary op v next)
  | join {Q : Asked} {made : Creations} {left right : Process} {next : Value → Value → Process}
    (hl : Reads .nothing made left) (hr : Reads .nothing made right)
    (hn : ∀ more, made ⊆ more → ∀ a b, Reads Q more (next a b)) : Reads Q made (.join left right next)

/-- What holds of a value goes on holding while containers are made. -/
def Asked.Lasting (Q : Asked) : Prop := ∀ made more, made ⊆ more → ∀ v, Q made v → Q more v

theorem Asked.lasting_nothing : Asked.nothing.Lasting := fun _ _ _ _ _ => trivial

namespace Process
variable {σ : Type} {s : Setting σ} {Q : Asked} {made more : Creations} {p : Process}

theorem Reads.mono (hp : p.Reads Q made) (hQ : Q.Lasting) (hsub : made ⊆ more) : p.Reads Q more := by
  induction hp generalizing more with
  | done hv => exact .done (hQ _ _ hsub _ hv)
  | fail e => exact .fail e
  | settle hn => exact .settle fun further hfurther => hn further (hsub.trans hfurther)
  | read hn => exact .read fun further hfurther => hn further (hsub.trans hfurther)
  | keyOf hn => exact .keyOf fun further hfurther => hn further (hsub.trans hfurther)
  | newArray hn => exact .newArray fun further hfurther => hn further (hsub.trans hfurther)
  | newObject hn => exact .newObject fun further hfurther => hn further (hsub.trans hfurther)
  | binary hn => exact .binary fun further hfurther => hn further (hsub.trans hfurther)
  | unary hn => exact .unary fun further hfurther => hn further (hsub.trans hfurther)
  | join _ _ hn ihl ihr =>
    exact .join (ihl Asked.lasting_nothing hsub) (ihr Asked.lasting_nothing hsub)
      fun further hfurther => hn further (hsub.trans hfurther)

/-- What a poll may come to. -/
def Reads.Comes (Q : Asked) (made : Creations) : Progress → Prop
  | .finished v => Q made v
  | .failed _ => True
  | .waiting rest => rest.Reads Q made

theorem Reads.Comes.mono {progress : Progress} (h : Comes Q made progress) (hQ : Q.Lasting) (hsub : made ⊆ more) :
    Comes Q more progress := by
  cases progress with
  | finished v => exact hQ _ _ hsub v h
  | failed e => trivial
  | waiting rest => exact Reads.mono h hQ hsub

theorem Reads.Comes.leaves {progress : Progress} (h : Comes .nothing made progress) (hp : progress.Leaves p) :
    p.Reads .nothing made := by
  cases hp with
  | finished v => exact .done h
  | waiting rest => exact h

end Process

/-- Pending values become available without a change to the containers that there are. -/
def Host.LeavesHeap {σ : Type} (host : Host σ) : Prop :=
  ∀ id (w : World σ), w.heap.Grows (host.poll id w).2.heap

namespace World
variable {σ : Type} {host : Host σ}

theorem grows_poll (hh : host.LeavesHeap) (id : Nat) (w : World σ) : w.heap.Grows (w.poll host id).2.heap := by
  have hpoll := hh id w
  unfold poll
  split
  · exact .refl w.heap
  · split <;> rename_i hanswer
    · rw [hanswer] at hpoll
      exact hpoll
    · rw [hanswer] at hpoll
      exact hpoll

theorem grows_settleWithin (hh : host.LeavesHeap) (fuel : Nat) (v : Value) (w : World σ) :
    w.heap.Grows (settleWithin host fuel v w).2.heap := by
  fun_induction settleWithin host fuel v w with
  | case1 => exact .refl _
  | case2 fuel id w v w₁ hpoll ih =>
    have hg := grows_poll hh id w
    rw [hpoll] at hg
    exact hg.trans ih
  | case3 fuel id w e w₁ hpoll =>
    have hg := grows_poll hh id w
    rwa [hpoll] at hg
  | case4 fuel id w w₁ hpoll =>
    have hg := grows_poll hh id w
    rwa [hpoll] at hg
  | case5 => exact .refl _

theorem grows_settle (hh : host.LeavesHeap) (v : Value) (w : World σ) :
    w.heap.Grows (w.settle host v).2.heap :=
  grows_settleWithin hh _ v w

end World

namespace Process.Reads
variable {σ : Type} {s : Setting σ} {Q : Asked} {made more : Creations} {p : Process} {a b c : Heap}
  {progress : Progress}

/-- What a poll leaves: the heap has only grown, and what was made is recorded. -/
structure Polled (Q : Asked) (made : Creations) (a b : Heap) (progress : Progress) : Prop where
  grows : a.Grows b
  comes : Comes Q (made ∪ a.created b) progress

theorem Polled.stay (h : Comes Q made progress) : Polled Q made a a progress where
  grows := .refl a
  comes := by rwa [Heap.created_self, Set.union_empty]

/-- A poll that goes on after the heap has grown. -/
theorem Polled.go_on (hg : a.Grows b) (h : Polled Q (made ∪ a.created b) b c progress) :
    Polled Q made a c progress where
  grows := hg.trans h.grows
  comes := by
    have hcomes := h.comes
    rwa [Set.union_assoc, Heap.created_union hg h.grows] at hcomes

/-- One poll. -/
theorem poll (hh : s.host.LeavesHeap) (hops : s.operators = .empty) (hp : p.Reads Q made) (w : World σ) :
    Polled Q made w.heap (p.poll s w).2.heap (p.poll s w).1 := by
  have hsub {made : Creations} {a b : Heap} : made ⊆ made ∪ a.created b := Set.subset_union_left
  induction hp generalizing w with
  | done hv => exact .stay hv
  | fail e => exact .stay trivial
  | @settle Q made v next hn ih =>
    have hg := w.grows_settle hh v
    simp only [Process.poll]
    generalize w.settle s.host v = settled at hg
    obtain ⟨answer, w₁⟩ := settled
    cases answer with
    | settled u => exact .go_on hg (ih _ hsub u w₁)
    | failed e => exact .go_on hg (.stay trivial)
    | waiting u => exact .go_on hg (.stay (.settle fun more hmore => hn more (hsub.trans hmore)))
  | @read Q made target key next hn ih =>
    simp only [Process.poll]
    cases w.heap.getProperty target key with
    | ok v => exact ih made .rfl v w
    | error e => exact .stay trivial
  | @keyOf Q made v next hn ih => exact ih made .rfl _ w
  | @newArray Q made vs next hn ih =>
    have hg := Heap.grows_newArray w.heap vs.toArray
    exact .go_on hg (ih _ hsub _ (.inr (w.heap.newArray_mem_created vs)) { w with heap := _ })
  | @newObject Q made fs next hn ih =>
    have hg := Heap.grows_newObject w.heap fs
    exact .go_on hg (ih _ hsub _ (.inr (w.heap.newObject_mem_created fs)) { w with heap := _ })
  | @binary Q made op a b next hn ih =>
    have happly : s.operators.applyBinary op a b w = (op.apply w.heap a b, w) := by rw [hops]; rfl
    simp only [Process.poll, happly]
    cases op.apply w.heap a b with
    | ok v => exact ih made .rfl v w
    | error e => exact .stay trivial
  | @unary Q made op v next hn ih =>
    have happly : s.operators.applyUnary op v w = (op.apply w.heap v, w) := by rw [hops]; rfl
    simp only [Process.poll, happly]
    cases op.apply w.heap v with
    | ok v => exact ih made .rfl v w
    | error e => exact .stay trivial
  | @join Q made left right next hl hr hn ihl ihr ihn =>
    obtain ⟨hgl, hl⟩ := ihl w
    cases hpl : left.poll s w with
    | mk l w₁ =>
    rw [hpl] at hgl hl
    obtain ⟨hgr, hr⟩ := ihr w₁
    cases hpr : right.poll s w₁ with
    | mk r w₂ =>
    rw [hpr] at hgr hr
    have hg := hgl.trans hgr
    -- What is recorded of one operand is recorded of both polls together.
    replace hl := hl.mono Asked.lasting_nothing
      (Set.union_subset_union_right made (Heap.created_subset hgl hgr))
    replace hr := hr.mono Asked.lasting_nothing
      (Set.union_subset_union_right made (Heap.created_subset_of_grows hgl hgr))
    cases poll_join next hpl hpr with
    | leftFailed e heq =>
      rw [heq]
      exact ⟨hgl, trivial⟩
    | rightFailed e heq =>
      rw [heq]
      exact ⟨hg, trivial⟩
    | goesOn a b heq =>
      rw [heq]
      exact .go_on hg (ihn _ hsub a b w₂)
    | waits hrestl hrestr _ heq =>
      rw [heq]
      exact ⟨hg, .join (hl.leaves hrestl) (hr.leaves hrestr) fun more hmore => hn more (hsub.trans hmore)⟩

end Process.Reads

/-! ### Turns -/

/-- One poll of a process: the world before it and the world after it. -/
structure Turn (σ : Type) where
  before : World σ
  after : World σ

/-- The polls of a process, one after the other, and what the last one comes to. Between two of them the world may
become any other one. -/
inductive Process.Turns {σ : Type} (s : Setting σ) :
    Process → World σ → List (Turn σ) → Progress → World σ → Prop where
  | last {p : Process} {w w' : World σ} {progress : Progress} (h : p.poll s w = (progress, w')) :
    Turns s p w [⟨w, w'⟩] progress w'
  | on {p rest : Process} {w w' u u' : World σ} {turns : List (Turn σ)} {progress : Progress}
    (h : p.poll s w = (.waiting rest, w')) (hturns : Turns s rest u turns progress u') :
    Turns s p w (⟨w, w'⟩ :: turns) progress u'

namespace Turn
variable {σ : Type} {turns turns' : List (Turn σ)}

/-- The containers that were made in some turns. -/
def created (turns : List (Turn σ)) : Creations := {e | ∃ t ∈ turns, e ∈ t.before.heap.created t.after.heap}

/-- A turn comes after another one, and all the containers are still there, whatever they hold. -/
def Precedes (t t' : Turn σ) : Prop :=
  t.after.heap.arrays.size ≤ t'.before.heap.arrays.size ∧ t.after.heap.objects.size ≤ t'.before.heap.objects.size

/-- A turn comes after another one, and nothing was written in between. -/
def Undisturbed (t t' : Turn σ) : Prop := t.after.heap.Grows t'.before.heap

variable {t t' : Turn σ} {v : Value}

theorem Precedes.within (h : t.Precedes t') (hv : v.Within t.after.heap 0) : v.Within t'.before.heap 0 := by
  cases v with
  | array => exact Nat.lt_of_lt_of_le hv h.1
  | object => exact Nat.lt_of_lt_of_le hv h.2
  | pending => exact hv
  | _ => trivial

theorem created_cons (t : Turn σ) (turns : List (Turn σ)) :
    created (t :: turns) = t.before.heap.created t.after.heap ∪ created turns := by
  ext e
  simp [created]

theorem created_singleton (t : Turn σ) : created [t] = t.before.heap.created t.after.heap := by
  ext e
  simp [created]

end Turn

/-- All the polls of a process that only reads. -/
theorem Process.Turns.reads {σ : Type} {s : Setting σ} {p : Process} {w w' : World σ} {turns : List (Turn σ)}
    {progress : Progress} {Q : Asked} {made : Creations} (h : p.Turns s w turns progress w')
    (hh : s.host.LeavesHeap) (hops : s.operators = .empty) (hp : p.Reads Q made) :
    (∀ t ∈ turns, t.before.heap.Grows t.after.heap) ∧ Reads.Comes Q (made ∪ Turn.created turns) progress := by
  induction h generalizing made with
  | @last p w w' progress hpoll =>
    obtain ⟨hg, hcomes⟩ := hp.poll hh hops w
    rw [hpoll] at hg hcomes
    rw [Turn.created_singleton]
    exact ⟨List.forall_mem_singleton.2 hg, hcomes⟩
  | @on p rest w w₁ u u' turns progress hpoll _ ih =>
    obtain ⟨hg, hcomes⟩ := hp.poll hh hops w
    rw [hpoll] at hg hcomes
    obtain ⟨hrest, hend⟩ := ih hcomes
    rw [Turn.created_cons, ← Set.union_assoc]
    exact ⟨List.forall_mem_cons.2 ⟨hg, hrest⟩, hend⟩

section Whole
variable {σ : Type} {s : Setting σ} {p : Process} {w w' : World σ} {turns turns' : List (Turn σ)}
  {progress : Progress}

open Process

theorem Process.Turns.exists_cons (h : p.Turns s w turns progress w') :
    ∃ after rest, turns = ⟨w, after⟩ :: rest := by
  cases h with
  | last => exact ⟨_, [], rfl⟩
  | on => exact ⟨_, _, rfl⟩

/-- Where nothing is written in between, nothing is written by all the turns together, and what was made in them is
still what it was made of. -/
theorem Process.Turns.created_subset (h : p.Turns s w turns progress w')
    (hgrows : ∀ t ∈ turns, t.before.heap.Grows t.after.heap) (hundisturbed : turns.Pairwise Turn.Undisturbed) :
    w.heap.Grows w'.heap ∧ Turn.created turns ⊆ w.heap.created w'.heap := by
  induction h with
  | last =>
    rw [Turn.created_singleton]
    exact ⟨hgrows _ (List.mem_singleton.2 rfl), .rfl⟩
  | @on p rest w w₁ u u' turns progress _ hrest ih =>
    obtain ⟨hfirst, hothers⟩ := List.forall_mem_cons.1 hgrows
    obtain ⟨hbetween, hpairs⟩ := List.pairwise_cons.1 hundisturbed
    obtain ⟨hg, hsub⟩ := ih hothers hpairs
    obtain ⟨after, more, rfl⟩ := hrest.exists_cons
    have hto : w.heap.Grows u.heap := hfirst.trans (hbetween _ List.mem_cons_self)
    have hfrom : w₁.heap.Grows u'.heap := (hbetween _ List.mem_cons_self : w₁.heap.Grows u.heap).trans hg
    rw [Turn.created_cons]
    exact ⟨hto.trans hg, Set.union_subset (Heap.created_subset hfirst hfrom)
      (hsub.trans (Heap.created_subset_of_grows hto hg))⟩

/-- What was made in the turns of a process was not there before. -/
theorem Process.Turns.not_within (h : p.Turns s w turns progress w')
    (hgrows : ∀ t ∈ turns, t.before.heap.Grows t.after.heap) (hprecedes : turns.Pairwise Turn.Precedes)
    {v : Value} {made : Contents} (hv : (v, made) ∈ Turn.created turns) : ¬ v.Within w.heap 0 := by
  obtain ⟨after, rest, rfl⟩ := h.exists_cons
  obtain ⟨t, ht, hmade⟩ := hv
  intro hwithin
  rcases List.mem_cons.1 ht with rfl | ht
  · exact hmade.1.2 hwithin
  · have hfirst : w.heap.Grows after.heap := hgrows _ List.mem_cons_self
    exact hmade.1.2 (((List.pairwise_cons.1 hprecedes).1 t ht).within (hfirst.within hwithin))

/-- Turns that take place one after the other make different containers. -/
theorem Turn.not_mem_created (hapart : ∀ t ∈ turns, ∀ t' ∈ turns', t.Precedes t' ∨ t'.Precedes t) {v : Value}
    {made made' : Contents} (hv : (v, made) ∈ created turns) : (v, made') ∉ created turns' := by
  rintro ⟨t', ht', hmade'⟩
  obtain ⟨t, ht, hmade⟩ := hv
  rcases hapart t ht t' ht' with hbefore | hafter
  · exact hmade'.1.2 (hbefore.within hmade.1.1)
  · exact hmade.1.2 (hafter.within hmade'.1.1)

end Whole

end LatentExpr
