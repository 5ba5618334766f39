import LatentExpr.Proofs.Heap.Growth
import LatentExpr.Value.Method
import Mathlib.Logic.Relation

/-!
What can be reached in a heap. A value is `Available` when neither it nor anything that can be reached from
it is pending. Whatever is built of available values is available, whatever is read from one is, and
storing an available value leaves every value available that was. The last fact has one proof:
`Available.of_holds`, which looks at one container at a time.
-/
namespace LatentExpr

/-! ### Fields -/

theorem Fields.mem_insert {key : String} {value : Value} {fields : Fields} {f : String × Value}
    (hf : f ∈ Fields.insert key value fields) : f.2 = value ∨ f ∈ fields := by
  induction fields with
  | nil =>
    rw [Fields.insert, List.mem_singleton] at hf
    exact .inl (by rw [hf])
  | cons field rest ih =>
    unfold Fields.insert at hf
    split at hf
    · rcases List.mem_cons.1 hf with rfl | hf
      · exact .inl rfl
      · exact .inr (List.mem_cons_of_mem _ hf)
    · rcases List.mem_cons.1 hf with rfl | hf
      · exact .inr List.mem_cons_self
      · exact (ih hf).imp_right (List.mem_cons_of_mem _)

/-- What holds of the values of all entries holds of the fields that they make. -/
theorem Fields.forall_ofEntries {P : Value → Prop} {entries : List (String × Value)}
    (he : ∀ e ∈ entries, P e.2) : ∀ f ∈ Fields.ofEntries entries, P f.2 := by
  unfold Fields.ofEntries
  refine List.foldlRecOn entries _ (motive := fun fields : Fields => ∀ f ∈ fields, P f.2) (by simp) ?_
  intro fields hfields e hmem f hf
  rcases Fields.mem_insert hf with h | h
  · rw [h]
    exact he e hmem
  · exact hfields f h

namespace Heap

/-! ### Reaching -/

/-- A container holds a value. -/
inductive Holds (h : Heap) : Value → Value → Prop where
  | element {i : Nat} {v : Value} (hv : v ∈ h.elements i) : Holds h (.array i) v
  | field {i : Nat} {f : String × Value} (hf : f ∈ h.fields i) : Holds h (.object i) f.2

/-- A value can be reached from another one, through containers that hold one another. -/
def Reaches (h : Heap) : Value → Value → Prop := Relation.ReflTransGen h.Holds

/-- Nothing pending can be reached from a value. -/
def Available (h : Heap) (v : Value) : Prop := ∀ u, h.Reaches v u → u.isPending = false

theorem Available.isPending {h : Heap} {v : Value} (hv : h.Available v) : v.isPending = false :=
  hv v .refl

theorem Available.held {h : Heap} {v u : Value} (hv : h.Available v) (hu : h.Holds v u) :
    h.Available u :=
  fun _ hreach => hv _ (.head hu hreach)

/-- Values that are not pending and hold only values of their kind are available. -/
theorem available_of_closed {h : Heap} {P : Value → Prop} (hp : ∀ v, P v → v.isPending = false)
    (hh : ∀ v u, P v → h.Holds v u → P u) {v : Value} (hv : P v) : h.Available v := by
  intro u hreach
  suffices P u from hp u this
  induction hreach with
  | refl => exact hv
  | tail _ hu ih => exact hh _ _ ih hu

/-- If all that a container with available contents holds in another heap was available, then everything
that was available is so in that heap. -/
theorem Available.of_holds {h h' : Heap} (hh : ∀ v u, h.Available v → h'.Holds v u → h.Available u)
    {v : Value} (hv : h.Available v) : h'.Available v :=
  available_of_closed (fun _ hv => hv.isPending) hh hv

theorem available_of_isPlain (h : Heap) {v : Value} (hv : v.isPlain = true) : h.Available v := by
  intro u hreach
  rcases hreach.cases_head with rfl | ⟨x, hx, -⟩
  · exact Value.isPending_of_isPlain hv
  · cases hx <;> cases hv

/-! ### Reading -/

/-- What is read from a value means the same everywhere or is held by it. -/
theorem isPlain_or_holds_of_getProperty {h : Heap} {target v : Value} {key : String}
    (hg : h.getProperty target key = .ok v) : v.isPlain = true ∨ h.Holds target v := by
  cases target with
  | undefined | null => cases hg
  | bool | number | function | pending =>
    cases hg
    exact .inl rfl
  | string s =>
    cases hg
    exact .inl (Agrees.isPlain_stringProperty s key)
  | array id =>
    cases hg
    unfold arrayProperty
    split
    · rename_i index _
      by_cases hlt : index < (h.elements id).size
      · simp only [hlt, getElem?_pos, Option.getD_some]
        exact .inr (.element (Array.getElem_mem hlt))
      · simp only [hlt, not_false_eq_true, getElem?_neg, Option.getD_none]
        exact .inl rfl
    · split
      · exact .inl rfl
      · cases ArrayMethod.ofName? key <;> exact .inl rfl
  | object id =>
    cases hg
    cases hk : (h.fields id).get? key with
    | none => exact .inl rfl
    | some v =>
      obtain ⟨before, after, heq, -⟩ := List.lookup_eq_some_iff.1 hk
      exact .inr (.field (f := (key, v)) (by simp [heq]))

theorem Available.getProperty {h : Heap} {target v : Value} {key : String} (ht : h.Available target)
    (hg : h.getProperty target key = .ok v) : h.Available v :=
  (isPlain_or_holds_of_getProperty hg).elim h.available_of_isPlain ht.held

/-! ### Fresh containers -/

theorem Available.newArray {h : Heap} {elements : Array Value} (he : ∀ v ∈ elements, h.Available v)
    {v : Value} (hv : h.Available v) : (h.newArray elements).2.Available v := by
  refine hv.of_holds fun v u hv hu => ?_
  cases hu with
  | @element i _ hmem =>
    rw [elements_newArray] at hmem
    split at hmem
    · exact he u hmem
    · exact hv.held (.element hmem)
  | field hf => exact hv.held (.field hf)

/-- A fresh array is available, since a container that is not there yet holds nothing. -/
theorem available_newArray {h : Heap} {elements : Array Value} (he : ∀ v ∈ elements, h.Available v) :
    (h.newArray elements).2.Available (h.newArray elements).1 := by
  refine Available.newArray he fun u hreach => ?_
  rcases hreach.cases_head with rfl | ⟨x, hx, -⟩
  · rfl
  · cases hx with
    | element hmem => simp [Heap.elements] at hmem

theorem Available.newObject {h : Heap} {fields : Fields} (hf : ∀ f ∈ fields, h.Available f.2)
    {v : Value} (hv : h.Available v) : (h.newObject fields).2.Available v := by
  refine hv.of_holds fun v u hv hu => ?_
  cases hu with
  | element hmem => exact hv.held (.element hmem)
  | @field i f hmem =>
    rw [fields_newObject] at hmem
    split at hmem
    · exact hf f hmem
    · exact hv.held (.field hmem)

theorem available_newObject {h : Heap} {fields : Fields} (hf : ∀ f ∈ fields, h.Available f.2) :
    (h.newObject fields).2.Available (h.newObject fields).1 := by
  refine Available.newObject hf fun u hreach => ?_
  rcases hreach.cases_head with rfl | ⟨x, hx, -⟩
  · rfl
  · cases hx with
    | field hmem => simp [Heap.fields] at hmem

/-! ### Writing -/

theorem mem_elements_modifyArray {h : Heap} {id i : Nat} {change : Array Value → Array Value}
    {v : Value} (hv : v ∈ (h.modifyArray id change).elements i) :
    v ∈ h.elements i ∨ i = id ∧ v ∈ change (h.elements id) := by
  by_cases hi : i = id
  · subst hi
    by_cases hlt : i < h.arrays.size
    · rw [elements_modifyArray_self hlt] at hv
      exact .inr ⟨rfl, hv⟩
    · simp [elements, modifyArray, hlt] at hv
  · rw [elements_modifyArray_of_ne h (Ne.symm hi)] at hv
    exact .inl hv

theorem mem_fields_modifyObject {h : Heap} {id i : Nat} {change : Fields → Fields}
    {f : String × Value} (hf : f ∈ (h.modifyObject id change).fields i) :
    f ∈ h.fields i ∨ i = id ∧ f ∈ change (h.fields id) := by
  by_cases hi : i = id
  · subst hi
    by_cases hlt : i < h.objects.size
    · rw [fields_modifyObject_self hlt] at hf
      exact .inr ⟨rfl, hf⟩
    · simp [fields, modifyObject, hlt] at hf
  · rw [fields_modifyObject_of_ne h (Ne.symm hi)] at hf
    exact .inl hf

/-- An array that is changed keeps values available if its new elements are old ones or available. -/
theorem Available.modifyArray {h : Heap} {id : Nat} {change : Array Value → Array Value}
    (hc : ∀ v ∈ change (h.elements id), v ∈ h.elements id ∨ h.Available v) {v : Value}
    (hv : h.Available v) : (h.modifyArray id change).Available v := by
  refine hv.of_holds fun v u hv hu => ?_
  cases hu with
  | element hmem =>
    rcases mem_elements_modifyArray hmem with hmem | ⟨rfl, hmem⟩
    · exact hv.held (.element hmem)
    · exact (hc u hmem).elim (fun hold => hv.held (.element hold)) id
  | field hf => exact hv.held (.field hf)

theorem mem_of_mem_extract {elements : Array Value} {first last : Nat} {v : Value}
    (hv : v ∈ elements.extract first last) : v ∈ elements := by
  obtain ⟨i, hi, rfl⟩ := Array.getElem_of_mem hv
  rw [Array.getElem_extract]
  exact Array.getElem_mem _

theorem mem_resize {elements : Array Value} {length : Nat} {v : Value}
    (hv : v ∈ resize elements length) : v ∈ elements ∨ v = .undefined := by
  rw [resize, Array.mem_append] at hv
  rcases hv with hv | hv
  · rw [Array.shrink_eq_take] at hv
    exact .inl (mem_of_mem_extract hv)
  · exact .inr (Array.mem_replicate.1 hv).2

theorem Available.push {h : Heap} {id : Nat} {value v : Value} (hvalue : h.Available value)
    (hv : h.Available v) : (h.push id value).Available v := by
  refine hv.modifyArray fun u hu => ?_
  rcases Array.mem_push.1 hu with hu | rfl
  · exact .inl hu
  · exact .inr hvalue

theorem Available.setElement {h h' : Heap} {id index : Nat} {value v : Value}
    (hs : h.setElement id index value = .ok h') (hvalue : h.Available value) (hv : h.Available v) :
    h'.Available v := by
  unfold Heap.setElement at hs
  split at hs
  · cases hs
    refine hv.modifyArray fun u hu => ?_
    rcases Array.mem_or_eq_of_mem_setIfInBounds hu with hu | rfl
    · exact .inl hu
    · exact .inr hvalue
  · dsimp only at hs
    split at hs
    · cases hs
    · cases hs
      refine hv.modifyArray fun u hu => ?_
      rcases Array.mem_push.1 hu with hu | rfl
      · rcases mem_resize hu with hu | rfl
        · exact .inl hu
        · exact .inr (h.available_of_isPlain rfl)
      · exact .inr hvalue

theorem Available.setLength {h h' : Heap} {id length : Nat} {v : Value}
    (hs : h.setLength id length = .ok h') (hv : h.Available v) : h'.Available v := by
  unfold Heap.setLength at hs
  split at hs
  · cases hs
  · cases hs
    refine hv.modifyArray fun u hu => ?_
    rcases mem_resize hu with hu | rfl
    · exact .inl hu
    · exact .inr (h.available_of_isPlain rfl)

theorem Available.setField {h : Heap} {id : Nat} {key : String} {value v : Value}
    (hvalue : h.Available value) (hv : h.Available v) : (h.setField id key value).Available v := by
  refine hv.of_holds fun v u hv hu => ?_
  cases hu with
  | element hmem => exact hv.held (.element hmem)
  | field hmem =>
    rcases mem_fields_modifyObject hmem with hmem | ⟨rfl, hmem⟩
    · exact hv.held (.field hmem)
    · rcases Fields.mem_insert hmem with heq | hmem
      · exact heq ▸ hvalue
      · exact hv.held (.field hmem)

/-- Storing an available value leaves everything available that was. -/
theorem Available.setProperty {h h' : Heap} {target value v : Value} {key : String}
    (hs : h.setProperty target key value = .ok h') (hvalue : h.Available value)
    (hv : h.Available v) : h'.Available v := by
  cases target with
  | object id =>
    cases hs
    exact hvalue.setField hv
  | array id =>
    unfold Heap.setProperty at hs
    dsimp only at hs
    split at hs
    · exact hvalue.setElement hs hv
    · split at hs
      · cases hl : h.requestedLength value with
        | error e => rw [hl] at hs; cases hs
        | ok length =>
          rw [hl] at hs
          exact hv.setLength hs
      · cases hs
  | _ => cases hs

/-! ### Methods -/

theorem mem_concatenated {h : Heap} {args : List Value} {elements : Array Value} {v : Value}
    (hv : v ∈ ArrayMethod.concatenated h elements args) :
    v ∈ elements ∨ ∃ arg ∈ args, v = arg ∨ h.Holds arg v := by
  unfold ArrayMethod.concatenated at hv
  induction args generalizing elements with
  | nil => exact .inl hv
  | cons arg rest ih =>
    rcases ih hv with hmem | ⟨arg', harg, hmem⟩
    · cases arg with
      | array id =>
        rcases Array.mem_append.1 hmem with hmem | hmem
        · exact .inl hmem
        · exact .inr ⟨_, List.mem_cons_self, .inr (.element hmem)⟩
      | _ =>
        rcases Array.mem_push.1 hmem with hmem | rfl
        · exact .inl hmem
        · exact .inr ⟨_, List.mem_cons_self, .inl rfl⟩
    · exact .inr ⟨arg', List.mem_cons_of_mem _ harg, hmem⟩

theorem Available.pushAll {args : List Value} {h : Heap} {id : Nat} (ha : ∀ a ∈ args, h.Available a)
    {v : Value} (hv : h.Available v) :
    (args.foldl (fun h v => h.push id v) h).Available v := by
  induction args generalizing h with
  | nil => exact hv
  | cons arg rest ih =>
    obtain ⟨harg, hrest⟩ := List.forall_mem_cons.1 ha
    exact ih (fun a hmem => harg.push (hrest a hmem)) (harg.push hv)

/-- A method of arrays, called with available values, leaves everything available and returns an available
value. -/
theorem Available.callArrayMethod {h : Heap} (method : ArrayMethod) {receiver : Value}
    {args : List Value} (hr : h.Available receiver) (ha : ∀ a ∈ args, h.Available a) :
    (∀ v, h.Available v → (h.callArrayMethod method receiver args).2.Available v) ∧
      ∀ v, (h.callArrayMethod method receiver args).1 = .ok v →
        (h.callArrayMethod method receiver args).2.Available v := by
  cases receiver with
  | array id =>
    have hplain : ∀ v v' : Value, v.isPlain = true → Except.ok v = (.ok v' : Outcome) →
        h.Available v' := by
      intro v v' hv heq
      cases heq
      exact h.available_of_isPlain hv
    cases method with
    | includes => exact ⟨fun _ hv => hv, fun v => hplain _ v rfl⟩
    | join => exact ⟨fun _ hv => hv, fun v => hplain _ v rfl⟩
    | indexOf =>
      refine ⟨fun _ hv => hv, fun v => hplain _ v ?_⟩
      unfold indexValue
      split <;> rfl
    | push =>
      refine ⟨fun v hv => hv.pushAll ha, fun v heq => ?_⟩
      cases heq
      exact available_of_isPlain _ rfl
    | concat =>
      have helements : ∀ v ∈ ArrayMethod.concatenated h (h.elements id) args, h.Available v := by
        intro v hv
        rcases mem_concatenated hv with hv | ⟨arg, harg, rfl | hv⟩
        · exact hr.held (.element hv)
        · exact ha _ harg
        · exact (ha _ harg).held hv
      refine ⟨fun v hv => hv.newArray helements, fun v heq => ?_⟩
      cases heq
      exact available_newArray helements
    | slice =>
      have helements : ∀ first last, ∀ v ∈ (h.elements id).extract first last, h.Available v :=
        fun _ _ v hv => hr.held (.element (mem_of_mem_extract hv))
      refine ⟨fun v hv => hv.newArray (helements _ _), fun v heq => ?_⟩
      cases heq
      exact available_newArray (helements _ _)
  | _ => exact ⟨fun _ hv => hv, fun _ heq => by cases heq⟩

theorem isPlain_of_callStringMethod {h : Heap} {method : StringMethod} {receiver v : Value}
    {args : List Value} (hv : h.callStringMethod method receiver args = .ok v) :
    v.isPlain = true := by
  cases receiver with
  | string s =>
    cases hv
    cases method with
    | indexOf =>
      unfold StringMethod.apply indexValue
      dsimp only
      split <;> rfl
    | _ => rfl
  | _ => cases hv

end Heap

end LatentExpr
