import LatentExpr.Proofs.Heap.Agreement

/-!
Heaps that only grow. An evaluation that writes nothing leaves every container as it is and adds fresh
ones. A correspondence of two heaps survives the growth of either, and a fresh container on one side can
be paired with one on the other that has no partner yet.
-/
namespace LatentExpr

namespace Heap

/-- Every container of `h` is in `h'` with the same contents. -/
structure Grows (h h' : Heap) : Prop where
  arrays_le : h.arrays.size ≤ h'.arrays.size
  objects_le : h.objects.size ≤ h'.objects.size
  elements : ∀ {i : Nat}, i < h.arrays.size → h'.elements i = h.elements i
  fields : ∀ {i : Nat}, i < h.objects.size → h'.fields i = h.fields i

/-- Everything in a heap is there: containers hold values that are in the heap or among the first `n`
pending values, and arrays hold no pending values. -/
structure Closed (n : Nat) (h : Heap) : Prop where
  elements : ∀ i, ∀ v ∈ (h.elements i).toList, v.Within h 0
  fields : ∀ i, ∀ f ∈ h.fields i, f.2.Within h n

theorem Grows.refl (h : Heap) : h.Grows h :=
  ⟨Nat.le_refl _, Nat.le_refl _, fun _ => rfl, fun _ => rfl⟩

theorem Grows.trans {a b c : Heap} (hab : a.Grows b) (hbc : b.Grows c) : a.Grows c where
  arrays_le := Nat.le_trans hab.arrays_le hbc.arrays_le
  objects_le := Nat.le_trans hab.objects_le hbc.objects_le
  elements hi := (hbc.elements (Nat.lt_of_lt_of_le hi hab.arrays_le)).trans (hab.elements hi)
  fields hi := (hbc.fields (Nat.lt_of_lt_of_le hi hab.objects_le)).trans (hab.fields hi)

theorem Grows.within {h h' : Heap} (hg : h.Grows h') {n : Nat} {v : Value} (hv : v.Within h n) :
    v.Within h' n := by
  cases v with
  | array => exact Nat.lt_of_lt_of_le hv hg.arrays_le
  | object => exact Nat.lt_of_lt_of_le hv hg.objects_le
  | pending => exact hv
  | _ => trivial

theorem elements_newArray (h : Heap) (elements : Array Value) (i : Nat) :
    (h.newArray elements).2.elements i =
      if i = h.arrays.size then elements else h.elements i := by
  simp only [Heap.elements, newArray, Array.getD_eq_getD_getElem?, Array.getElem?_push]
  split <;> simp_all

theorem fields_newObject (h : Heap) (fields : Fields) (i : Nat) :
    (h.newObject fields).2.fields i = if i = h.objects.size then fields else h.fields i := by
  simp only [Heap.fields, newObject, Array.getD_eq_getD_getElem?, Array.getElem?_push]
  split <;> simp_all

theorem grows_newArray (h : Heap) (elements : Array Value) : h.Grows (h.newArray elements).2 where
  arrays_le := by simp [newArray]
  objects_le := Nat.le_refl _
  elements hi := by rw [elements_newArray, if_neg (Nat.ne_of_lt hi)]
  fields _ := rfl

theorem grows_newObject (h : Heap) (fields : Fields) : h.Grows (h.newObject fields).2 where
  arrays_le := Nat.le_refl _
  objects_le := by simp [newObject]
  elements _ := rfl
  fields hi := by rw [fields_newObject, if_neg (Nat.ne_of_lt hi)]

theorem newArray_within (h : Heap) (elements : Array Value) :
    (h.newArray elements).1.Within (h.newArray elements).2 0 := by
  simp [newArray, Value.Within]

theorem newObject_within (h : Heap) (fields : Fields) : (h.newObject fields).1.Within (h.newObject fields).2 0 := by
  simp [newObject, Value.Within]

theorem Closed.newArray {n : Nat} {h : Heap} (hc : h.Closed n) {elements : Array Value}
    (he : ∀ v ∈ elements.toList, v.Within h 0) : (h.newArray elements).2.Closed n where
  elements i v hv := by
    rw [elements_newArray] at hv
    refine (grows_newArray h elements).within ?_
    by_cases hi : i = h.arrays.size
    · rw [if_pos hi] at hv
      exact he v hv
    · rw [if_neg hi] at hv
      exact hc.elements i v hv
  fields i f hf := (grows_newArray h elements).within (hc.fields i f hf)

theorem Closed.newObject {n : Nat} {h : Heap} (hc : h.Closed n) {fields : Fields}
    (hf : ∀ f ∈ fields, f.2.Within h n) : (h.newObject fields).2.Closed n where
  elements i v hv := (grows_newObject h fields).within (hc.elements i v hv)
  fields i f hi := by
    rw [fields_newObject] at hi
    refine (grows_newObject h fields).within ?_
    by_cases hid : i = h.objects.size
    · rw [if_pos hid] at hi
      exact hf f hi
    · rw [if_neg hid] at hi
      exact hc.fields i f hi

end Heap

/-! ### Correspondences that grow -/

/-- Related lists whose right members have a property. -/
theorem forall₂_and_right {α β : Type} {P : α → β → Prop} {Q : β → Prop} {xs : List α} {ys : List β}
    (hxy : List.Forall₂ P xs ys) (hq : ∀ y ∈ ys, Q y) :
    List.Forall₂ (fun x y => P x y ∧ Q y) xs ys := by
  induction hxy with
  | nil => exact .nil
  | cons hr _ ih =>
    obtain ⟨hy, hrest⟩ := List.forall_mem_cons.1 hq
    exact .cons ⟨hr, hy⟩ (ih hrest)

theorem Paired.mono {deliver : Nat → Value} {R S : Correspondence} {h h' k k' : Heap} {v v' : Value}
    (hv : Paired deliver R h k v v') (hRS : R ≤ S) (hh : h.Grows h') (hk : k.Grows k') :
    Paired deliver S h' k' v v' := by
  cases hv with
  | plain hp => exact .plain hp
  | array hi hj he =>
    refine .array (Nat.lt_of_lt_of_le hi hh.arrays_le) (Nat.lt_of_lt_of_le hj hk.arrays_le) ?_
    rw [hh.elements hi, hk.elements hj]
    exact he.imp fun _ _ hr => hRS _ _ hr
  | object hi hj hf =>
    refine .object (Nat.lt_of_lt_of_le hi hh.objects_le) (Nat.lt_of_lt_of_le hj hk.objects_le) ?_
    rw [hh.fields hi, hk.fields hj]
    exact FieldsMatch.mono (fun _ _ he => he.mono hRS) hf

/-- Fresh arrays of related elements are paired, however the right heap goes on to grow. -/
theorem Paired.newArray {deliver : Nat → Value} {R : Correspondence} {h k k' : Heap} {es es' : List Value}
    (he : List.Forall₂ R es es') (hk : (k.newArray es'.toArray).2.Grows k') :
    Paired deliver R (h.newArray es.toArray).2 k' (h.newArray es.toArray).1 (k.newArray es'.toArray).1 := by
  have hwithin := k.newArray_within es'.toArray
  refine .array (h.newArray_within es.toArray) (hk.within (n := 0) hwithin) ?_
  rwa [hk.elements hwithin, Heap.elements_newArray, Heap.elements_newArray, if_pos rfl, if_pos rfl]

/-- Fresh objects of fields that turn out to be related are paired, however the right heap goes on to grow. -/
theorem Paired.newObject {deliver : Nat → Value} {R : Correspondence} {h k k' : Heap} {fs fs' : Fields}
    (hf : FieldsMatch (Eventually deliver R) fs fs') (hk : (k.newObject fs').2.Grows k') :
    Paired deliver R (h.newObject fs).2 k' (h.newObject fs).1 (k.newObject fs').1 := by
  have hwithin := k.newObject_within fs'
  refine .object (h.newObject_within fs) (hk.within (n := 0) hwithin) ?_
  rwa [hk.fields hwithin, Heap.fields_newObject, Heap.fields_newObject, if_pos rfl, if_pos rfl]

namespace Agrees
variable {deliver : Nat → Value} {R : Correspondence} {h k : Heap}

theorem grow (ha : Agrees deliver R h k) {h' k' : Heap} (hh : h.Grows h') (hk : k.Grows k') :
    Agrees deliver R h' k' where
  plain := ha.plain
  paired hv := (ha.paired hv).mono (fun _ _ hr => hr) hh hk
  functional := ha.functional
  injective := ha.injective

/-- Two containers of the same kind with related contents, neither of which has a partner, become
partners. -/
theorem insert (ha : Agrees deliver R h k) {a b : Value} (hab : Paired deliver R h k a b)
    (hleft : ∀ v, ¬ R a v) (hright : ∀ v, ¬ R v b) :
    Agrees deliver (fun v v' => R v v' ∨ (v = a ∧ v' = b)) h k where
  plain hp := .inl (ha.plain hp)
  paired hv := by
    have hR : R ≤ fun v v' => R v v' ∨ (v = a ∧ v' = b) := fun _ _ hr => .inl hr
    rcases hv with hv | ⟨rfl, rfl⟩
    · exact (ha.paired hv).mono hR (.refl h) (.refl k)
    · exact hab.mono hR (.refl h) (.refl k)
  functional hx hy := by
    rcases hx with hx | ⟨rfl, rfl⟩ <;> rcases hy with hy | ⟨hy, rfl⟩
    · exact ha.functional hx hy
    · exact absurd (hy ▸ hx) (hleft _)
    · exact absurd hy (hleft _)
    · rfl
  injective hx hy := by
    rcases hx with hx | ⟨rfl, rfl⟩ <;> rcases hy with hy | ⟨rfl, hy⟩
    · exact ha.injective hx hy
    · exact absurd (hy ▸ hx) (hright _)
    · exact absurd hy (hright _)
    · rfl

/-- A correspondence with a heap that has grown, as it was before. -/
theorem restrict {k' : Heap} (ha : Agrees deliver R h k') (hc : k.Closed 0) (hk : k.Grows k') :
    Agrees deliver (fun v v' => R v v' ∧ v'.Within k 0) h k where
  plain hp := ⟨ha.plain hp, Value.within_of_isPlain hp k 0⟩
  paired hv := by
    obtain ⟨hr, hw⟩ := hv
    cases ha.paired hr with
    | plain hp => exact .plain hp
    | @array i j hi hj he =>
      refine .array hi hw ?_
      rw [hk.elements hw] at he
      exact forall₂_and_right he (hc.elements j)
    | @object i j hi hj hf =>
      refine .object hi hw ?_
      rw [hk.fields hw] at hf
      refine (forall₂_and_right hf (hc.fields j)).imp fun x y hxy => ?_
      obtain ⟨⟨hkey, n, u, hl, hu⟩, hwithin⟩ := hxy
      exact ⟨hkey, n, u, hl, hu, hwithin⟩
  functional hx hy := ha.functional hx.1 hy.1
  injective hx hy := ha.injective hx.1 hy.1

end Agrees

/-! ### Settled heaps -/

/-- `h'` is `h` with every pending value replaced by what it turns out to be. -/
structure Heap.Settled (deliver : Nat → Value) (h h' : Heap) : Prop where
  arrays : h'.arrays = h.arrays
  objects : h'.objects.size = h.objects.size
  fields : ∀ i, FieldsMatch (fun v v' => ∃ k, Leads deliver k v v') (h.fields i) (h'.fields i)

/-- A value leads to a value that is in the same heap. -/
theorem Leads.within {deliver : Nat → Value} {h : Heap} {n k : Nat} {v u : Value}
    (hl : Leads deliver k v u) (hd : ∀ id, id < n → (deliver id).Within h n) (hv : v.Within h n) :
    u.Within h 0 := by
  induction hl with
  | @here v hp => cases v <;> first | exact hv | cases hp
  | next _ ih => exact ih (hd _ hv)

namespace Heap.Settled
variable {deliver : Nat → Value} {h h' : Heap} {n : Nat}

theorem elements_eq (hs : h.Settled deliver h') (i : Nat) : h'.elements i = h.elements i := by
  rw [Heap.elements, Heap.elements, hs.arrays]

theorem within_iff (hs : h.Settled deliver h') (v : Value) : v.Within h' 0 ↔ v.Within h 0 := by
  cases v <;> simp only [Value.Within, hs.arrays, hs.objects]

/-- The fields of a settled object are in the heap. -/
theorem fields_match (hs : h.Settled deliver h') (hc : h.Closed n)
    (hd : ∀ id, id < n → (deliver id).Within h n) (i : Nat) :
    FieldsMatch (fun v v' => (∃ k, Leads deliver k v v') ∧ v'.Within h 0) (h.fields i)
      (h'.fields i) := by
  have hfields := hc.fields i
  have hmatch := hs.fields i
  generalize h.fields i = f at hfields hmatch ⊢
  generalize h'.fields i = g at hmatch ⊢
  induction hmatch with
  | nil => exact .nil
  | cons hxy _ ih =>
    obtain ⟨hx, hrest⟩ := List.forall_mem_cons.1 hfields
    obtain ⟨hkey, k, hl⟩ := hxy
    exact .cons ⟨hkey, ⟨k, hl⟩, hl.within hd hx⟩ (ih hrest)

/-- Values in the heap that are not pending correspond to themselves in the settled heap. -/
theorem agrees (hs : h.Settled deliver h') (hc : h.Closed n)
    (hd : ∀ id, id < n → (deliver id).Within h n) :
    Agrees deliver (fun v v' => v' = v ∧ v.Within h 0) h h' where
  plain hp := ⟨rfl, Value.within_of_isPlain hp h 0⟩
  paired := by
    intro v v' hv
    obtain ⟨rfl, hw⟩ := hv
    cases v' with
    | array i =>
      refine .array hw (hs.arrays ▸ hw) ?_
      rw [hs.elements_eq]
      exact List.forall₂_same.2 fun x hx => ⟨rfl, hc.elements i x hx⟩
    | object i =>
      refine .object hw (hs.objects ▸ hw) (hs.fields_match hc hd i |>.imp fun f g hfg => ?_)
      obtain ⟨hkey, ⟨k, hl⟩, hw⟩ := hfg
      exact ⟨hkey, k, g.2, hl, rfl, hw⟩
    | pending => exact absurd hw (Nat.not_lt_zero _)
    | _ => exact .plain rfl
  functional hx hy := by rw [hx.1, hy.1]
  injective hx hy := by rw [← hx.1, hy.1]

/-- A settled heap has no pending values. -/
theorem closed (hs : h.Settled deliver h') (hc : h.Closed n)
    (hd : ∀ id, id < n → (deliver id).Within h n) : h'.Closed 0 where
  elements i v hv := (hs.within_iff v).2 (hc.elements i v (hs.elements_eq i ▸ hv))
  fields i f hf := by
    have hmatch := hs.fields_match hc hd i
    rw [hs.within_iff]
    generalize h.fields i = f at hmatch
    generalize h'.fields i = g at hmatch hf
    induction hmatch with
    | nil => cases hf
    | cons hxy _ ih =>
      rcases List.mem_cons.1 hf with rfl | hf
      · exact hxy.2.2
      · exact ih hf

end Heap.Settled

end LatentExpr
