import LatentExpr.Value.Operation
import LatentExpr.Value.Property
import Mathlib.Data.List.Forall2
import Mathlib.Data.List.Nodup
import Mathlib.Data.List.Perm.Subperm

/-!
Heaps that agree. Two worlds that hold the same data under different identities are compared along a
correspondence of their values: values that are no containers correspond to themselves, containers
correspond one to one and have corresponding contents. The left one of the two worlds may still have
pending values in the fields of its objects; what they turn out to be is what corresponds.

Along such a correspondence every conversion, comparison and built-in operator has the same result in
both worlds, and properties that are read correspond again.
-/
namespace LatentExpr

namespace Value

/-- Neither a container nor pending, so that the value means the same in every world. -/
def isPlain : Value → Bool
  | array _ | object _ | pending _ => false
  | _ => true

/-- The containers of a value are in a heap, and its pending values are among the first `n`. -/
def Within (h : Heap) (n : Nat) : Value → Prop
  | array id => id < h.arrays.size
  | object id => id < h.objects.size
  | pending id => id < n
  | _ => True

theorem isPending_of_isPlain {v : Value} (h : v.isPlain = true) : v.isPending = false := by
  cases v <;> first | rfl | cases h

theorem isPending_of_within {h : Heap} {v : Value} (hv : v.Within h 0) : v.isPending = false := by
  cases v <;> first | rfl | exact absurd hv (Nat.not_lt_zero _)

theorem within_of_isPlain {v : Value} (h : v.isPlain = true) (heap : Heap) (n : Nat) :
    v.Within heap n := by
  cases v <;> trivial

end Value

/-! ### Pending values and what they turn out to be -/

/-- Where `v` leads when each pending value turns out to be what `deliver` says: after `k` deliveries
comes `u`, which is not pending. -/
inductive Leads (deliver : Nat → Value) : Nat → Value → Value → Prop where
  | here {v : Value} (h : v.isPending = false) : Leads deliver 0 v v
  | next {k id : Nat} {u : Value} (h : Leads deliver k (deliver id) u) :
    Leads deliver (k + 1) (.pending id) u

namespace Leads
variable {deliver : Nat → Value}

theorem unique {k l : Nat} {v u u' : Value} (h : Leads deliver k v u) (h' : Leads deliver l v u') :
    k = l ∧ u = u' := by
  induction h generalizing l with
  | here hv =>
    cases h' with
    | here => exact ⟨rfl, rfl⟩
    | next => cases hv
  | next _ ih =>
    cases h' with
    | here hv => cases hv
    | next h' =>
      obtain ⟨rfl, rfl⟩ := ih h'
      exact ⟨rfl, rfl⟩

theorem isPending_eq_false {k : Nat} {v u : Value} (h : Leads deliver k v u) :
    u.isPending = false := by
  induction h with
  | here hv => exact hv
  | next _ ih => exact ih

end Leads

/-! ### Correspondences -/

/-- Which value of one world stands for which value of another. -/
abbrev Correspondence := Value → Value → Prop

/-- What `v` turns out to be corresponds to `v'`. -/
def Eventually (deliver : Nat → Value) (R : Correspondence) (v v' : Value) : Prop :=
  ∃ k u, Leads deliver k v u ∧ R u v'

theorem Eventually.mono {deliver : Nat → Value} {R S : Correspondence} (hRS : R ≤ S) {v v' : Value}
    (h : Eventually deliver R v v') : Eventually deliver S v v' := by
  obtain ⟨k, u, hl, hu⟩ := h
  exact ⟨k, u, hl, hRS _ _ hu⟩

/-- Fields under the same keys in the same order, whose values are related. -/
def FieldsMatch (P : Correspondence) : Fields → Fields → Prop :=
  List.Forall₂ fun f g => f.1 = g.1 ∧ P f.2 g.2

/-- Values of the same kind: a plain value with itself, containers of two heaps with related
contents. -/
inductive Paired (deliver : Nat → Value) (R : Correspondence) (h h' : Heap) : Correspondence where
  | plain {v : Value} (hv : v.isPlain = true) : Paired deliver R h h' v v
  | array {i j : Nat} (hi : i < h.arrays.size) (hj : j < h'.arrays.size)
    (he : List.Forall₂ R (h.elements i).toList (h'.elements j).toList) :
    Paired deliver R h h' (.array i) (.array j)
  | object {i j : Nat} (hi : i < h.objects.size) (hj : j < h'.objects.size)
    (hf : FieldsMatch (Eventually deliver R) (h.fields i) (h'.fields j)) :
    Paired deliver R h h' (.object i) (.object j)

/-- Two heaps agree along a correspondence: it is one to one and relates values of the same kind with
related contents. -/
structure Agrees (deliver : Nat → Value) (R : Correspondence) (h h' : Heap) : Prop where
  plain : ∀ {v : Value}, v.isPlain = true → R v v
  paired : ∀ {v v' : Value}, R v v' → Paired deliver R h h' v v'
  functional : ∀ {v a b : Value}, R v a → R v b → a = b
  injective : ∀ {a b v : Value}, R a v → R b v → a = b

theorem FieldsMatch.mono {P Q : Correspondence} (hPQ : P ≤ Q) {f g : Fields}
    (h : FieldsMatch P f g) : FieldsMatch Q f g :=
  h.imp fun _ _ hfg => ⟨hfg.1, hPQ _ _ hfg.2⟩

theorem Paired.isPending_eq_false {deliver : Nat → Value} {R : Correspondence} {h h' : Heap}
    {v v' : Value} (hv : Paired deliver R h h' v v') : v.isPending = false := by
  cases hv with
  | plain hv => exact Value.isPending_of_isPlain hv
  | array => rfl
  | object => rfl

theorem Paired.kind_eq {deliver : Nat → Value} {R : Correspondence} {h h' : Heap} {v v' : Value}
    (hv : Paired deliver R h h' v v') : v.kind = v'.kind := by
  cases hv <;> rfl

namespace Agrees
variable {deliver : Nat → Value} {R : Correspondence} {h h' : Heap} {v v' : Value}

theorem isPending_eq_false (ha : Agrees deliver R h h') (hv : R v v') : v.isPending = false :=
  (ha.paired hv).isPending_eq_false

theorem eventually (ha : Agrees deliver R h h') (hv : R v v') : Eventually deliver R v v' :=
  ⟨0, v, .here (ha.isPending_eq_false hv), hv⟩

theorem eq_iff_eq (ha : Agrees deliver R h h') {a a' b b' : Value} (hA : R a a') (hB : R b b') :
    a = b ↔ a' = b' :=
  ⟨fun e => ha.functional (e ▸ hA) hB, fun e => ha.injective (e ▸ hA) hB⟩

/-! ### Texts -/

theorem map_eq_map {α β γ : Type} {P : α → β → Prop} {f : α → γ} {g : β → γ} {xs : List α}
    {ys : List β} (hxy : List.Forall₂ P xs ys) (hfg : ∀ x y, P x y → f x = g y) :
    xs.map f = ys.map g := by
  induction hxy with
  | nil => rfl
  | cons hr _ ih => rw [List.map_cons, List.map_cons, hfg _ _ hr, ih]

/-- Different numbers below a bound are at most as many as the bound. -/
theorem length_le_of_nodup {track : List Nat} {n : Nat} (hnd : track.Nodup)
    (hlt : ∀ i ∈ track, i < n) : track.length ≤ n := by
  have hsub : track ⊆ List.range n := fun i hi => List.mem_range.2 (hlt i hi)
  simpa using (hnd.subperm hsub).length_le

theorem array_lt (ha : Agrees deliver R h h') {i j : Nat} (hij : R (.array i) (.array j)) :
    i < h.arrays.size ∧ j < h'.arrays.size := by
  cases ha.paired hij with
  | plain hv => cases hv
  | array hi hj => exact ⟨hi, hj⟩

theorem mem_track_iff (ha : Agrees deliver R h h') {track track' : List Nat} {i j : Nat}
    (ht : List.Forall₂ (fun a b => R (.array a) (.array b)) track track')
    (hij : R (.array i) (.array j)) : i ∈ track ↔ j ∈ track' := by
  induction ht with
  | nil => simp
  | cons hab _ ih =>
    have := ha.eq_iff_eq hij hab
    simp only [Value.array.injEq] at this
    simp only [List.mem_cons, this, ih]

theorem track_lt (ha : Agrees deliver R h h') {track track' : List Nat}
    (ht : List.Forall₂ (fun a b => R (.array a) (.array b)) track track') :
    (∀ i ∈ track, i < h.arrays.size) ∧ ∀ j ∈ track', j < h'.arrays.size := by
  induction ht with
  | nil => simp
  | cons hab _ ih =>
    obtain ⟨hi, hj⟩ := ha.array_lt hab
    exact ⟨List.forall_mem_cons.2 ⟨hi, ih.1⟩, List.forall_mem_cons.2 ⟨hj, ih.2⟩⟩

/-- Corresponding arrays have the same text. Both walks are inside corresponding arrays and can still
go as deep as there are arrays that they are not inside of, so neither runs out of depth. -/
theorem arrayText_eq (ha : Agrees deliver R h h') (fuel fuel' : Nat) (track track' : List Nat)
    (i j : Nat) (ht : List.Forall₂ (fun a b => R (.array a) (.array b)) track track')
    (hnd : track.Nodup) (hnd' : track'.Nodup) (hij : R (.array i) (.array j))
    (hf : h.arrays.size < fuel + track.length) (hf' : h'.arrays.size < fuel' + track'.length) :
    h.arrayText fuel track i = h'.arrayText fuel' track' j := by
  obtain ⟨hlt, hlt'⟩ := ha.track_lt ht
  have hle := length_le_of_nodup hnd hlt
  have hle' := length_le_of_nodup hnd' hlt'
  induction fuel generalizing fuel' track track' i j with
  | zero => omega
  | succ fuel ih =>
    cases fuel' with
    | zero => omega
    | succ fuel' =>
      have hmem := ha.mem_track_iff ht hij
      simp only [Heap.arrayText, List.contains_eq_mem, hmem]
      by_cases hj : j ∈ track'
      · simp [hj]
      · have hi : i ∉ track := fun hi => hj (hmem.1 hi)
        simp only [hj, decide_false, Bool.false_eq_true, if_false]
        have hdeep : ∀ x y, R (.array x) (.array y) →
            h.arrayText fuel (i :: track) x = h'.arrayText fuel' (j :: track') y := by
          intro x y hxy
          have ht' : List.Forall₂ (fun a b => R (.array a) (.array b)) (i :: track) (j :: track') :=
            .cons hij ht
          have hl := ha.track_lt ht'
          exact ih fuel' _ _ x y ht' (List.nodup_cons.2 ⟨hi, hnd⟩) (List.nodup_cons.2 ⟨hj, hnd'⟩)
            hxy (by simp only [List.length_cons]; omega) (by simp only [List.length_cons]; omega)
            hl.1 hl.2 (length_le_of_nodup (List.nodup_cons.2 ⟨hi, hnd⟩) hl.1)
            (length_le_of_nodup (List.nodup_cons.2 ⟨hj, hnd'⟩) hl.2)
        cases ha.paired hij with
        | plain hv => cases hv
        | array _ _ he =>
          congr 1
          refine map_eq_map he fun x y hxy => ?_
          cases ha.paired hxy with
          | plain hv => cases x <;> first | rfl | cases hv
          | array => exact hdeep _ _ hxy
          | object => rfl

theorem text_eq (ha : Agrees deliver R h h') (hv : R v v') : h.text v = h'.text v' := by
  cases ha.paired hv with
  | plain hp => cases v <;> first | rfl | cases hp
  | array => exact ha.arrayText_eq _ _ [] [] _ _ .nil .nil .nil hv (by simp) (by simp)
  | object => rfl

theorem toNumber_eq (ha : Agrees deliver R h h') (hv : R v v') : h.toNumber v = h'.toNumber v' := by
  have htext := ha.text_eq hv
  cases ha.paired hv with
  | plain hp => cases v <;> first | rfl | cases hp
  | array => exact congrArg Number.ofText htext
  | object => rfl

theorem toPrimitive_eq (ha : Agrees deliver R h h') (hv : R v v') :
    h.toPrimitive v = h'.toPrimitive v' := by
  have htext := ha.text_eq hv
  cases ha.paired hv with
  | plain hp => cases v <;> first | rfl | cases hp
  | array => exact congrArg Value.string htext
  | object => rfl

theorem truthy_eq (ha : Agrees deliver R h h') (hv : R v v') : v.truthy = v'.truthy := by
  cases ha.paired hv <;> rfl

/-! ### Comparisons and operators -/

/-- Two numbers are strictly equal as numbers, other values when they are the same. -/
theorem strictEqual_eq (ha : Agrees deliver R h h') {a a' b b' : Value} (hA : R a a')
    (hB : R b b') : a.strictEqual b = a'.strictEqual b' := by
  have hsame := ha.eq_iff_eq hA hB
  cases ha.paired hA with
  | plain hp =>
    cases ha.paired hB with
    | plain => rfl
    | array => cases a <;> first | rfl | cases hp
    | object => cases a <;> first | rfl | cases hp
  | array => exact decide_eq_decide.2 hsame
  | object => exact decide_eq_decide.2 hsame

/-- What stands for an operand in a loose comparison is the same in both worlds, or neither a number
nor a text in either. -/
theorem comparand_eq (ha : Agrees deliver R h h') {a a' b b' : Value} (hA : R a a')
    (hB : R b b') : h.comparand a b = h'.comparand a' b' ∨
      ((h.comparand a b).isPlain = false ∧ (h'.comparand a' b').isPlain = false) := by
  have hself : a = a' ∨ (a.isPlain = false ∧ a'.isPlain = false) := by
    cases ha.paired hA with
    | plain => exact .inl rfl
    | array => exact .inr ⟨rfl, rfl⟩
    | object => exact .inr ⟨rfl, rfl⟩
  unfold Heap.comparand
  rw [(ha.paired hA).kind_eq, (ha.paired hB).kind_eq]
  split
  all_goals first | exact hself | exact .inl (ha.toPrimitive_eq hA)

theorem mixedEqual_eq (ha : Agrees deliver R h h') {a a' b b' : Value} (hA : R a a')
    (hB : R b b') : h.mixedEqual a b = h'.mixedEqual a' b' := by
  have hleft := ha.comparand_eq hA hB
  have hright := ha.comparand_eq hB hA
  have hfalse : ∀ (heap : Heap) (x y : Value),
      (heap.comparand x y).isPlain = false ∨ (heap.comparand y x).isPlain = false →
        heap.mixedEqual x y = false := by
    intro heap x y hxy
    unfold Heap.mixedEqual
    split <;> simp_all [Value.isPlain]
  rcases hleft with hleft | ⟨hl, hl'⟩
  · rcases hright with hright | ⟨hr, hr'⟩
    · unfold Heap.mixedEqual
      rw [hleft, hright]
    · rw [hfalse h a b (.inr hr), hfalse h' a' b' (.inr hr')]
  · rw [hfalse h a b (.inl hl), hfalse h' a' b' (.inl hl')]

theorem unboolean (ha : Agrees deliver R h h') (hv : R v v') : R v.unboolean v'.unboolean := by
  cases ha.paired hv with
  | plain hp => cases v <;> first | exact hv | exact ha.plain rfl
  | array => exact hv
  | object => exact hv

theorem looseEqual_eq (ha : Agrees deliver R h h') {a a' b b' : Value} (hA : R a a')
    (hB : R b b') : h.looseEqual a b = h'.looseEqual a' b' := by
  have hnull : ∀ {v v' : Value}, R v v' → v.isNullish = v'.isNullish := by
    intro v v' hv
    cases ha.paired hv <;> rfl
  unfold Heap.looseEqual
  rw [(ha.paired hA).kind_eq, (ha.paired hB).kind_eq, ha.strictEqual_eq hA hB, hnull hA, hnull hB,
    ha.mixedEqual_eq (ha.unboolean hA) (ha.unboolean hB)]

/-- The number of a primitive does not depend on the world. -/
theorem toNumber_toPrimitive_eq (ha : Agrees deliver R h h') (heap : Heap) (v : Value) :
    h.toNumber (heap.toPrimitive v) = h'.toNumber (heap.toPrimitive v) := by
  refine ha.toNumber_eq (ha.plain ?_)
  cases v <;> rfl

theorem compare?_eq (ha : Agrees deliver R h h') {a a' b b' : Value} (hA : R a a')
    (hB : R b b') : h.compare? a b = h'.compare? a' b' := by
  have hnumA := ha.toNumber_toPrimitive_eq h' a'
  have hnumB := ha.toNumber_toPrimitive_eq h' b'
  unfold Heap.compare?
  rw [ha.toPrimitive_eq hA, ha.toPrimitive_eq hB]
  split
  · rfl
  · rw [hnumA, hnumB]

theorem add_eq (ha : Agrees deliver R h h') {a a' b b' : Value} (hA : R a a') (hB : R b b') :
    h.add a b = h'.add a' b' := by
  have hnumA := ha.toNumber_toPrimitive_eq h' a'
  have hnumB := ha.toNumber_toPrimitive_eq h' b'
  unfold Heap.add
  rw [ha.toPrimitive_eq hA, ha.toPrimitive_eq hB]
  split
  · rfl
  · rfl
  · rw [hnumA, hnumB]

theorem arithmetic_eq (ha : Agrees deliver R h h') {a a' b b' : Value} (hA : R a a')
    (hB : R b b') (op : Number → Number → Number) :
    h.arithmetic op a b = h'.arithmetic op a' b' := by
  unfold Heap.arithmetic
  rw [ha.toNumber_eq hA, ha.toNumber_eq hB]

/-- A binary operator has the same outcome on corresponding operands. -/
theorem binary_eq (ha : Agrees deliver R h h') (op : BinaryOp) {a a' b b' : Value} (hA : R a a')
    (hB : R b b') : op.apply h a b = op.apply h' a' b' := by
  cases op <;>
    simp only [BinaryOp.apply, ha.looseEqual_eq hA hB, ha.strictEqual_eq hA hB,
      ha.compare?_eq hA hB, ha.add_eq hA hB, ha.arithmetic_eq hA hB]

/-- A unary operator has the same outcome on corresponding operands. -/
theorem unary_eq (ha : Agrees deliver R h h') (op : UnaryOp) (hv : R v v') :
    op.apply h v = op.apply h' v' := by
  cases op <;> simp only [UnaryOp.apply, ha.toNumber_eq hv, ha.truthy_eq hv]

/-! ### Properties -/

theorem get?_match {P : Correspondence} {f g : Fields} (hfg : FieldsMatch P f g) (key : String) :
    (f.get? key = none ∧ g.get? key = none) ∨
      ∃ v v', f.get? key = some v ∧ g.get? key = some v' ∧ P v v' := by
  induction hfg with
  | nil => exact .inl ⟨rfl, rfl⟩
  | @cons x y _ _ hxy _ ih =>
    rw [Fields.get?_cons, Fields.get?_cons, hxy.1]
    by_cases hk : y.1 = key
    · rw [if_pos hk, if_pos hk]
      exact .inr ⟨x.2, y.2, rfl, rfl, hxy.2⟩
    · rw [if_neg hk, if_neg hk]
      exact ih

theorem isPlain_stringProperty (s key : String) :
    (Heap.stringProperty s key).isPlain = true := by
  unfold Heap.stringProperty
  split
  · rename_i index _
    cases (Text.units s.toList)[index]? <;> rfl
  · split
    · rfl
    · cases StringMethod.ofName? key <;> rfl

/-- An element, the length or a method of corresponding arrays. -/
theorem arrayProperty_agrees (ha : Agrees deliver R h h') {i j : Nat}
    (he : List.Forall₂ R (h.elements i).toList (h'.elements j).toList) (key : String) :
    R (h.arrayProperty i key) (h'.arrayProperty j key) := by
  have hsize : (h.elements i).size = (h'.elements j).size := by simpa using he.length_eq
  unfold Heap.arrayProperty
  split
  · rename_i index _
    by_cases hlt : index < (h.elements i).size
    · have hlt' : index < (h'.elements j).size := hsize ▸ hlt
      simp only [hlt, hlt', getElem?_pos, Option.getD_some]
      exact he.get (by simpa using hlt) (by simpa using hlt')
    · have hlt' : ¬ index < (h'.elements j).size := hsize ▸ hlt
      simp only [hlt, hlt', not_false_eq_true, getElem?_neg, Option.getD_none]
      exact ha.plain rfl
  · split
    · rw [hsize]
      exact ha.plain rfl
    · cases ArrayMethod.ofName? key <;> exact ha.plain rfl

/-- Reading a property of corresponding values fails with the same error, or gives values of which the
left one turns out to be what corresponds to the right one. -/
theorem getProperty_agrees (ha : Agrees deliver R h h') (hv : R v v') (key : String) :
    (∃ e, h.getProperty v key = .error e ∧ h'.getProperty v' key = .error e) ∨
      ∃ x x', h.getProperty v key = .ok x ∧ h'.getProperty v' key = .ok x' ∧
        Eventually deliver R x x' := by
  have hplain : ∀ {x : Value}, x.isPlain = true → Eventually deliver R x x :=
    fun hx => ha.eventually (ha.plain hx)
  cases ha.paired hv with
  | plain hp =>
    cases v with
    | undefined | null => exact .inl ⟨_, rfl, rfl⟩
    | bool | number | function => exact .inr ⟨_, _, rfl, rfl, hplain rfl⟩
    | string s =>
      exact .inr ⟨_, _, rfl, rfl, hplain (isPlain_stringProperty s key)⟩
    | array | object | pending => cases hp
  | @array i j hi hj he =>
    exact .inr ⟨_, _, rfl, rfl, ha.eventually (ha.arrayProperty_agrees he key)⟩
  | @object i j hi hj hf =>
    refine .inr ⟨_, _, rfl, rfl, ?_⟩
    rcases get?_match hf key with ⟨hx, hy⟩ | ⟨x, y, hx, hy, hxy⟩
    · rw [hx, hy]
      exact hplain rfl
    · rw [hx, hy]
      exact hxy

/-! ### Fresh containers -/

theorem insert_match {P : Correspondence} {f g : Fields} (hfg : FieldsMatch P f g) (key : String)
    {x y : Value} (hxy : P x y) : FieldsMatch P (f.insert key x) (g.insert key y) := by
  induction hfg with
  | nil => exact .cons ⟨rfl, hxy⟩ .nil
  | @cons p q _ _ hpq hrest ih =>
    unfold Fields.insert
    rw [hpq.1]
    by_cases hk : q.1 = key
    · rw [if_pos hk, if_pos hk]
      exact .cons ⟨rfl, hxy⟩ hrest
    · rw [if_neg hk, if_neg hk]
      exact .cons ⟨rfl, hpq.2⟩ ih

/-- Entries with the same keys and related values give objects with the same keys and related
values. -/
theorem ofEntries_match {P : Correspondence} {es es' : List (String × Value)}
    (he : FieldsMatch P es es') : FieldsMatch P (.ofEntries es) (.ofEntries es') := by
  refine List.rel_foldl ?_ .nil he
  rintro f g hfg ⟨key, x⟩ ⟨key', y⟩ ⟨hkey, hxy⟩
  obtain rfl : key = key' := hkey
  exact insert_match hfg key hxy

end Agrees

end LatentExpr
