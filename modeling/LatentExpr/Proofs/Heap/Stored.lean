import LatentExpr.Proofs.Heap.Bisimilar
import LatentExpr.Proofs.Number.Digits

/-!
What writing a property does. `InPlace.store` is `setProperty` as a program that changes a heap step by step and may
fail between two steps: an array that is too short is filled up before the value is stored. It fails exactly for the
writes that are `Refused`, then no step has changed anything; otherwise the target has become what `Stored` says, and
every other container is as it was (`InPlace.store_exact`).
-/
namespace LatentExpr

open Magnitude

-- a power of two with so large an exponent is not to be computed
attribute [local irreducible] Magnitude.unitsInOne

/-! ### Lengths -/

/-- The numbers that an array cannot be given as its length. -/
inductive Number.NoLength : Number → Prop where
  | nan : NoLength .nan
  | negative {m : Magnitude} (hm : m.isZero = false) : NoLength (.signed true m)
  | fractional {negative : Bool} {m : Magnitude} (hm : m.units % unitsInOne ≠ 0) : NoLength (.signed negative m)
  | long {m : Magnitude} (hm : Heap.maxLength * unitsInOne < m.units) : NoLength (.signed false m)

namespace Number

theorem toInt?_signed (negative : Bool) {m : Magnitude} (hfinite : m.isInfinite = false) {n : Nat}
    (hunits : m.units = n * unitsInOne) : (signed negative m).toInt? = some (if negative then -(n : Int) else n) := by
  have hwhole : (m.units % unitsInOne != 0) = false := by rw [hunits, Nat.mul_mod_left]; rfl
  rw [toInt?, hfinite, hwhole, hunits, Nat.mul_div_cancel _ unitsInOne_pos]
  rfl

/-- A whole number from zero up to the longest length is a length, and no other whole number is. -/
theorem length_or_noLength_of_whole (negative : Bool) {m : Magnitude} (hfinite : m.isInfinite = false) {n : Nat}
    (hunits : m.units = n * unitsInOne) :
    (∃ n : Nat, n ≤ Heap.maxLength ∧ (signed negative m).toInt? = some (n : Int) ∧ ¬ (signed negative m).NoLength) ∨
      (signed negative m).NoLength ∧ ∀ n : Nat, (signed negative m).toInt? = some (n : Int) → Heap.maxLength < n := by
  have hwhole : m.units % unitsInOne = 0 := by rw [hunits, Nat.mul_mod_left]
  have hzero : m.isZero = true ↔ n = 0 := by
    rw [isZero_iff, hunits, Nat.mul_eq_zero, or_iff_left unitsInOne_pos.ne']
  have hlong : Heap.maxLength * unitsInOne < m.units ↔ Heap.maxLength < n := by
    rw [hunits, Nat.mul_lt_mul_right unitsInOne_pos]
  rw [toInt?_signed negative hfinite hunits]
  cases negative with
  | true =>
    rw [if_pos rfl]
    by_cases hn : n = 0
    · refine .inl ⟨0, Nat.zero_le _, by rw [hn]; rfl, ?_⟩
      rintro (- | hm | hm | -)
      · rw [hzero.2 hn] at hm
        cases hm
      · exact hm hwhole
    · refine .inr ⟨.negative (Bool.eq_false_iff.2 fun h => hn (hzero.1 h)), fun k hk => ?_⟩
      have := Option.some.inj hk
      omega
  | false =>
    rw [if_neg Bool.false_ne_true]
    by_cases hle : n ≤ Heap.maxLength
    · refine .inl ⟨n, hle, rfl, ?_⟩
      rintro (- | - | hm | hm)
      · exact hm hwhole
      · exact absurd (hlong.1 hm) (Nat.not_lt_of_le hle)
    · refine .inr ⟨.long (hlong.2 (Nat.lt_of_not_le hle)), fun k hk => ?_⟩
      have := Option.some.inj hk
      omega

theorem noLength_infinite (negative : Bool) : (signed negative .infinite).NoLength := by
  cases negative with
  | true => exact .negative rfl
  | false =>
    refine .long ?_
    rw [units_infinite]
    decide +kernel

/-- A number is the length of an array, or it cannot be. -/
theorem length_or_noLength (x : Number) :
    (∃ n : Nat, n ≤ Heap.maxLength ∧ x.toInt? = some (n : Int) ∧ ¬ x.NoLength) ∨
      x.NoLength ∧ ∀ n : Nat, x.toInt? = some (n : Int) → Heap.maxLength < n := by
  cases x with
  | nan => exact .inr ⟨.nan, nofun⟩
  | signed negative m =>
    by_cases hinfinite : m.isInfinite = true
    · have hnone : (signed negative m).toInt? = none := by rw [toInt?, hinfinite]; rfl
      obtain rfl : m = .infinite := eq_of_code (beq_iff_eq.1 hinfinite)
      exact .inr ⟨noLength_infinite negative, fun n hn => by rw [hnone] at hn; cases hn⟩
    by_cases hwhole : m.units % unitsInOne = 0
    · obtain ⟨n, hn⟩ := Nat.dvd_of_mod_eq_zero hwhole
      rw [Nat.mul_comm] at hn
      exact length_or_noLength_of_whole negative (Bool.eq_false_iff.2 hinfinite) hn
    · have hnone : (signed negative m).toInt? = none := by
        rw [toInt?, if_pos]
        rw [Bool.or_eq_true, bne_iff_ne]
        exact .inr hwhole
      exact .inr ⟨.fractional hwhole, fun n hn => by rw [hnone] at hn; cases hn⟩

end Number

namespace Heap

/-! ### Writing in place -/

/-- A program that changes a heap step by step. When it fails, the heap is left as it is then. -/
abbrev InPlace (α : Type) := EStateM EvalError Heap α

namespace InPlace

def update (id : Nat) (change : Array Value → Array Value) : InPlace Unit :=
  modify fun h => h.modifyArray id change

/-- Cut an array or fill it up with `undefined`. -/
def setLength (id length : Nat) : InPlace Unit :=
  if maxLength < length then throw (.invalidArrayLength (toString length))
  else update id fun elements => resize elements length

/-- Store a value at an index. An array that is too short is filled up first. -/
def setElement (id index : Nat) (value : Value) : InPlace Unit := do
  let h ← get
  (if (h.elements id).size ≤ index then setLength id (min (index + 1) maxIndex) else pure ())
  update id fun elements => elements.setIfInBounds index value

/-- Write a property. -/
def store (target : Value) (key : String) (value : Value) : InPlace Unit :=
  match target with
  | .object id => modify fun h => h.setField id key value
  | .array id =>
    match arrayIndex? key with
    | some index => setElement id index value
    | none =>
      if key = "length" then do
        match (← get).requestedLength value with
        | .ok length => setLength id length
        | .error e => throw e
      else throw (.cannotSet key target.kind)
  | _ => throw (.cannotSet key target.kind)

/-- What a program comes to that goes through or fails before its first change. -/
def complete (h : Heap) : Except EvalError Heap → EStateM.Result EvalError Heap Unit
  | .ok after => .ok () after
  | .error e => .error e h

/-- Elements that are filled up past an index and stored at are the elements filled up to the index, and the value. -/
theorem resize_set {elements : Array Value} {index : Nat} (h : elements.size ≤ index) (value : Value) :
    (resize elements (index + 1)).setIfInBounds index value = (resize elements index).push value := by
  have hkeep : ∀ length, index ≤ length → elements.shrink length = elements := fun length hle => by
    rw [Array.shrink_eq_take, Array.take_eq_extract, Array.extract_eq_self_of_le (by omega)]
  have hmore : index + 1 - elements.size = index - elements.size + 1 := by omega
  have hsize : (elements ++ Array.replicate (index - elements.size) Value.undefined).size = index := by
    rw [Array.size_append, Array.size_replicate]
    omega
  rw [resize, resize, hkeep _ (Nat.le_succ _), hkeep _ le_rfl, hmore, Array.replicate_succ, Array.append_push]
  generalize elements ++ Array.replicate (index - elements.size) Value.undefined = filled at *
  subst hsize
  refine Array.ext_getElem? fun i => ?_
  rw [Array.getElem?_setIfInBounds, Array.getElem?_push, Array.getElem?_push, Array.size_push]
  grind

theorem modifyArray_modifyArray (h : Heap) (id : Nat) (f g : Array Value → Array Value) :
    (h.modifyArray id f).modifyArray id g = h.modifyArray id fun elements => g (f elements) := by
  refine congrArg (fun arrays => (⟨arrays, h.objects⟩ : Heap)) (Array.ext_getElem? fun i => ?_)
  simp only [modifyArray, Array.getElem?_modify]
  split_ifs
  · rw [Option.map_map]
    rfl
  · rfl

/-- Only what becomes of the elements counts. -/
theorem modifyArray_congr {h : Heap} {id : Nat} {f g : Array Value → Array Value}
    (hfg : f (h.elements id) = g (h.elements id)) : h.modifyArray id f = h.modifyArray id g := by
  refine congrArg (fun arrays => (⟨arrays, h.objects⟩ : Heap)) (Array.ext_getElem? fun i => ?_)
  rw [Array.getElem?_modify, Array.getElem?_modify]
  split_ifs with hi
  · subst hi
    rw [elements, Array.getD_eq_getD_getElem?] at hfg
    cases hget : h.arrays[id]? with
    | none => rfl
    | some elements =>
      rw [hget, Option.getD_some] at hfg
      rw [Option.map_some, Option.map_some, hfg]
  · rfl

theorem setLength_eq (h : Heap) (id length : Nat) : setLength id length h = complete h (h.setLength id length) := by
  unfold setLength Heap.setLength
  by_cases hlong : maxLength < length
  · rw [if_pos hlong, if_pos hlong]
    rfl
  · rw [if_neg hlong, if_neg hlong]
    rfl

theorem setElement_eq (h : Heap) (id index : Nat) (value : Value) :
    setElement id index value h = complete h (h.setElement id index value) := by
  have hset (h : Heap) : update id (fun elements => elements.setIfInBounds index value) h =
      .ok () (h.modifyArray id fun elements => elements.setIfInBounds index value) := rfl
  have hsteps : setElement id index value h = EStateM.bind
      (if (h.elements id).size ≤ index then setLength id (min (index + 1) maxIndex) else pure ())
        (fun _ => update id fun elements => elements.setIfInBounds index value) h := rfl
  rw [hsteps, Heap.setElement]
  by_cases hsize : (h.elements id).size ≤ index
  · rw [if_pos hsize, if_neg (Nat.not_lt_of_le hsize), EStateM.bind, setLength_eq, Heap.setLength]
    dsimp only
    by_cases hlong : maxLength < min (index + 1) maxIndex
    · rw [if_pos hlong, if_pos hlong]
      rfl
    · have hlength : min (index + 1) maxIndex = index + 1 := by
        rw [maxLength, maxIndex] at hlong
        rw [maxIndex]
        omega
      rw [if_neg hlong, if_neg hlong, complete]
      dsimp only
      rw [hset, modifyArray_modifyArray, hlength]
      exact congrArg (EStateM.Result.ok ()) (modifyArray_congr (resize_set hsize value))
  · rw [if_neg hsize, if_pos (Nat.lt_of_not_le hsize)]
    rfl

/-- A write in place is the write, and it fails before its first change or not at all. -/
theorem store_eq (h : Heap) (target : Value) (key : String) (value : Value) :
    store target key value h = complete h (h.setProperty target key value) := by
  unfold store setProperty
  cases target with
  | object id => rfl
  | array id =>
    dsimp only
    cases arrayIndex? key with
    | some index => exact setElement_eq h id index value
    | none =>
      dsimp only
      by_cases hlength : key = "length"
      · rw [if_pos hlength, if_pos hlength]
        have hrequest : (do
            match (← get).requestedLength value with
            | .ok length => setLength id length
            | .error e => throw e : InPlace Unit) h =
          (match h.requestedLength value with
            | .ok length => setLength id length
            | .error e => throw e : InPlace Unit) h := rfl
        rw [hrequest]
        cases h.requestedLength value with
        | ok length => exact setLength_eq h id length
        | error e => rfl
      · rw [if_neg hlength, if_neg hlength]
        rfl
  | _ => rfl

end InPlace

/-! ### What a write does -/

/-- The writes that fail. -/
inductive Refused (h : Heap) (value : Value) : Value → String → Prop where
  | plain {target : Value} {key : String} (ht : target.isContainer = false) : Refused h value target key
  | key {id : Nat} {key : String} (hindex : arrayIndex? key = none) (hlength : key ≠ "length") :
    Refused h value (.array id) key
  | index {id index : Nat} {key : String} (hindex : arrayIndex? key = some index)
    (hsize : (h.elements id).size ≤ index) (hlong : maxLength < index + 1) : Refused h value (.array id) key
  | length {id : Nat} (hn : (h.toNumber value).NoLength) : Refused h value (.array id) "length"

/-- No container but one is changed, and none is made. -/
structure OnlyChanges (h after : Heap) (target : Value) : Prop where
  arrays_size : after.arrays.size = h.arrays.size
  objects_size : after.objects.size = h.objects.size
  elements : ∀ id, target ≠ .array id → after.elements id = h.elements id
  fields : ∀ id, target ≠ .object id → after.fields id = h.fields id

/-- Fields with a value under a key: a key that was there keeps its place, and a new one comes last. -/
structure FieldStored (old new : Fields) (key : String) (value : Value) : Prop where
  self : new.get? key = some value
  others : ∀ other, other ≠ key → new.get? other = old.get? other
  keys : new.map Prod.fst = if key ∈ old.map Prod.fst then old.map Prod.fst else old.map Prod.fst ++ [key]

/-- Elements with a value at an index, behind what was there and gaps that are filled up. -/
structure ElementStored (old new : Array Value) (index : Nat) (value : Value) : Prop where
  size : new.size = max old.size (index + 1)
  self : new[index]? = some value
  others : ∀ i, i ≠ index → i < old.size → new[i]? = old[i]?
  gaps : ∀ i, old.size ≤ i → i < index → new[i]? = some .undefined

/-- Elements cut or filled up to a length. -/
structure Resized (old new : Array Value) (length : Nat) : Prop where
  size : new.size = length
  kept : ∀ i, i < old.size → i < length → new[i]? = old[i]?
  added : ∀ i, old.size ≤ i → i < length → new[i]? = some .undefined

/-- What the target of a write has become, and what is read from it. -/
inductive Stored (h after : Heap) (value : Value) : Value → String → Prop where
  | field {id : Nat} {key : String} (hfields : FieldStored (h.fields id) (after.fields id) key value)
    (hread : after.getProperty (.object id) key = .ok value) : Stored h after value (.object id) key
  | element {id index : Nat} {key : String} (hindex : arrayIndex? key = some index)
    (helements : ElementStored (h.elements id) (after.elements id) index value)
    (hread : after.getProperty (.array id) key = .ok value) : Stored h after value (.array id) key
  | length {id length : Nat} (hlength : (h.toNumber value).toInt? = some (length : Int))
    (helements : Resized (h.elements id) (after.elements id) length)
    (hread : after.getProperty (.array id) "length" = .ok (.ofNat length)) : Stored h after value (.array id) "length"

section
variable {h : Heap} {id : Nat}

theorem onlyChanges_modifyArray (h : Heap) (id : Nat) (change : Array Value → Array Value) :
    h.OnlyChanges (h.modifyArray id change) (.array id) where
  arrays_size := Array.size_modify
  objects_size := rfl
  elements _ hne := elements_modifyArray_of_ne h (fun heq => hne (congrArg Value.array heq)) change
  fields _ _ := rfl

theorem onlyChanges_modifyObject (h : Heap) (id : Nat) (change : Fields → Fields) :
    h.OnlyChanges (h.modifyObject id change) (.object id) where
  arrays_size := rfl
  objects_size := Array.size_modify
  elements _ _ := rfl
  fields _ hne := fields_modifyObject_of_ne h (fun heq => hne (congrArg Value.object heq)) change

theorem fieldStored_insert (old : Fields) (key : String) (value : Value) :
    FieldStored old (Fields.insert key value old) key value where
  self := Fields.get?_insert_self old key value
  others _ hne := Fields.get?_insert_of_ne (Ne.symm hne) old value
  keys := Fields.keys_insert old key value

theorem getElem?_resize (elements : Array Value) (length i : Nat) :
    (resize elements length)[i]? =
      if i < length then if i < elements.size then elements[i]? else some .undefined else none := by
  rw [resize, Array.getElem?_append, Array.shrink_eq_take, Array.take_eq_extract, Array.getElem?_extract,
    Array.size_extract, Array.getElem?_replicate]
  grind

theorem resized_resize (elements : Array Value) (length : Nat) : Resized elements (resize elements length) length where
  size := size_resize elements length
  kept i hi hlt := by rw [getElem?_resize, if_pos hlt, if_pos hi]
  added i hi hlt := by rw [getElem?_resize, if_pos hlt, if_neg (Nat.not_lt_of_le hi)]

theorem elementStored_set {elements : Array Value} {index : Nat} (hindex : index < elements.size) (value : Value) :
    ElementStored elements (elements.setIfInBounds index value) index value where
  size := by
    rw [Array.size_setIfInBounds]
    omega
  self := Array.getElem?_setIfInBounds_self_of_lt hindex
  others i hne _ := Array.getElem?_setIfInBounds_ne (Ne.symm hne)
  gaps i hi hlt := absurd hi (by omega)

theorem elementStored_push {elements : Array Value} {index : Nat} (hindex : elements.size ≤ index) (value : Value) :
    ElementStored elements ((resize elements index).push value) index value := by
  have hsize := size_resize elements index
  refine ⟨?_, ?_, fun i hne hi => ?_, fun i hi hlt => ?_⟩
  · rw [Array.size_push, hsize]
    omega
  · rw [Array.getElem?_push, if_pos hsize.symm]
  · rw [Array.getElem?_push, if_neg (by omega), getElem?_resize, if_pos (by omega), if_pos hi]
  · rw [Array.getElem?_push, if_neg (by omega), getElem?_resize, if_pos hlt, if_neg (Nat.not_lt_of_le hi)]

theorem getProperty_of_index {after : Heap} {key : String} {index : Nat} {value : Value}
    (hindex : arrayIndex? key = some index) (hself : (after.elements id)[index]? = some value) :
    after.getProperty (.array id) key = .ok value := by
  rw [getProperty, arrayProperty, hindex]
  dsimp only
  rw [hself, Option.getD_some]

theorem arrayIndex?_length : arrayIndex? "length" = none := by decide

theorem getProperty_length (after : Heap) (id : Nat) :
    after.getProperty (.array id) "length" = .ok (.ofNat (after.elements id).size) := by
  rw [getProperty, arrayProperty, arrayIndex?_length]
  rfl

theorem Stored.of_index {after : Heap} {value : Value} {key : String} {index : Nat}
    (hindex : arrayIndex? key = some index) (hs : h.Stored after value (.array id) key) :
    ElementStored (h.elements id) (after.elements id) index value ∧ after.getProperty (.array id) key = .ok value := by
  cases hs with
  | element hindex' helements hread =>
    obtain rfl := Option.some.inj (hindex.symm.trans hindex')
    exact ⟨helements, hread⟩
  | length =>
    rw [arrayIndex?_length] at hindex
    cases hindex

theorem refused_index_iff {key : String} {index : Nat} {value : Value} (hindex : arrayIndex? key = some index) :
    h.Refused value (.array id) key ↔ (h.elements id).size ≤ index ∧ maxLength < index + 1 := by
  constructor
  · rintro (⟨⟨⟩⟩ | ⟨hnone, -⟩ | ⟨hindex', hsize, hlong⟩ | -)
    · rw [hindex] at hnone
      cases hnone
    · rw [hindex] at hindex'
      obtain rfl := Option.some.inj hindex'
      exact ⟨hsize, hlong⟩
    · rw [arrayIndex?_length] at hindex
      cases hindex
  · exact fun ⟨hsize, hlong⟩ => .index hindex hsize hlong

theorem refused_length_iff {value : Value} :
    h.Refused value (.array id) "length" ↔ (h.toNumber value).NoLength := by
  constructor
  · rintro (⟨⟨⟩⟩ | ⟨-, hne⟩ | ⟨hindex, -, -⟩ | hno)
    · exact absurd rfl hne
    · rw [arrayIndex?_length] at hindex
      cases hindex
    · exact hno
  · exact .length

/-- A write to an index fails where it would make the array too long, and stores the value otherwise. -/
theorem setElement_cases (hid : id < h.arrays.size) (index : Nat) (value : Value) :
    ((h.elements id).size ≤ index ∧ maxLength < index + 1 ∧ ∃ e, h.setElement id index value = .error e) ∨
      ¬ ((h.elements id).size ≤ index ∧ maxLength < index + 1) ∧ ∃ after, h.setElement id index value = .ok after ∧
        h.OnlyChanges after (.array id) ∧ ElementStored (h.elements id) (after.elements id) index value := by
  unfold setElement
  by_cases hsize : index < (h.elements id).size
  · refine .inr ⟨fun hlong => absurd hlong.1 (Nat.not_le_of_lt hsize), _, if_pos hsize,
      onlyChanges_modifyArray _ _ _, ?_⟩
    rw [elements_modifyArray_self hid]
    exact elementStored_set hsize value
  · rw [if_neg hsize]
    dsimp only
    have hlength : maxLength < min (index + 1) maxIndex ↔ maxLength < index + 1 := by
      rw [maxLength, maxIndex]
      omega
    by_cases hlong : maxLength < index + 1
    · exact .inl ⟨Nat.le_of_not_lt hsize, hlong, _, if_pos (hlength.2 hlong)⟩
    · refine .inr ⟨fun h => hlong h.2, _, if_neg fun h => hlong (hlength.1 h), onlyChanges_modifyArray _ _ _, ?_⟩
      rw [elements_modifyArray_self hid]
      exact elementStored_push (Nat.le_of_not_lt hsize) value

/-- A write to the length fails unless the number is a length, and cuts or fills up the array otherwise. -/
theorem setLength_cases (hid : id < h.arrays.size) (value : Value) :
    (h.toNumber value).NoLength ∧ (∃ e, (do h.setLength id (← h.requestedLength value)) = .error e) ∨
      ¬ (h.toNumber value).NoLength ∧ ∃ (length : Nat) (after : Heap), (h.toNumber value).toInt? = some (length : Int) ∧
        (do h.setLength id (← h.requestedLength value)) = .ok after ∧
          h.OnlyChanges after (.array id) ∧ Resized (h.elements id) (after.elements id) length := by
  rcases (h.toNumber value).length_or_noLength with ⟨length, hle, hint, hlength⟩ | ⟨hno, hint⟩
  · have hrequest : h.requestedLength value = .ok length := by
      have hmin : min length maxIndex = length := by
        rw [maxLength] at hle
        rw [maxIndex]
        omega
      rw [requestedLength, hint]
      dsimp only
      rw [hmin]
    refine .inr ⟨hlength, length, _, hint, ?_, onlyChanges_modifyArray h id fun elements => resize elements length, ?_⟩
    · rw [hrequest]
      exact if_neg (Nat.not_lt_of_le hle)
    · rw [elements_modifyArray_self hid]
      exact resized_resize _ _
  · refine .inl ⟨hno, ?_⟩
    unfold requestedLength
    dsimp only
    split
    · rename_i length heq
      have hlong : maxLength < min length maxIndex := by
        have := hint length heq
        rw [maxLength] at *
        rw [maxIndex]
        omega
      exact ⟨_, if_pos hlong⟩
    · exact ⟨_, rfl⟩

end

namespace InPlace
variable {h : Heap} {target : Value} {pendings : Nat}

/-- A write to a value of a world fails exactly if it is refused, and then no step of it has changed anything; otherwise
it changes the target alone, to what is stored. -/
theorem store_exact (htarget : target.Within h pendings) (key : String) (value : Value) :
    (h.Refused value target key ∧
        ∃ e, h.setProperty target key value = .error e ∧ store target key value h = .error e h) ∨
      ¬ h.Refused value target key ∧ ∃ after, h.setProperty target key value = .ok after ∧
        store target key value h = .ok () after ∧ h.OnlyChanges after target ∧ h.Stored after value target key := by
  have hrefused {e : EvalError} (hr : h.Refused value target key) (he : h.setProperty target key value = .error e) :
      h.Refused value target key ∧
        ∃ e, h.setProperty target key value = .error e ∧ store target key value h = .error e h :=
    ⟨hr, e, he, by rw [store_eq, he]; rfl⟩
  have hstored {after : Heap} (hs : h.setProperty target key value = .ok after) :
      store target key value h = .ok () after := by
    rw [store_eq, hs]
    rfl
  cases target with
  | object id =>
    have hfields := fields_modifyObject_self htarget (Fields.insert key value)
    have hself : FieldStored (h.fields id) ((h.setField id key value).fields id) key value := by
      rw [setField, hfields]
      exact fieldStored_insert _ _ _
    refine .inr ⟨?_, _, rfl, hstored rfl, onlyChanges_modifyObject _ _ _, .field hself ?_⟩
    · rintro (⟨⟨⟩⟩)
    · rw [getProperty, hself.self]
      rfl
  | array id =>
    cases hindex : arrayIndex? key with
    | some index =>
      have hwrite : h.setProperty (.array id) key value = h.setElement id index value := by rw [setProperty, hindex]
      rcases setElement_cases htarget index value with ⟨hsize, hlong, e, he⟩ | ⟨hfits, after, ha, honly, helements⟩
      · exact .inl (hrefused (.index hindex hsize hlong) (hwrite.trans he))
      · exact .inr ⟨fun hr => hfits ((refused_index_iff hindex).1 hr), after, hwrite.trans ha,
          hstored (hwrite.trans ha), honly, .element hindex helements (getProperty_of_index hindex helements.self)⟩
    | none =>
      by_cases hlength : key = "length"
      · subst hlength
        have hwrite : h.setProperty (.array id) "length" value = (do h.setLength id (← h.requestedLength value)) := by
          rw [setProperty, hindex]
          exact if_pos rfl
        rcases setLength_cases htarget value with ⟨hno, e, he⟩ | ⟨hyes, length, after, hint, ha, honly, hresized⟩
        · exact .inl (hrefused (.length hno) (hwrite.trans he))
        · refine .inr ⟨fun hr => hyes (refused_length_iff.1 hr), after, hwrite.trans ha, hstored (hwrite.trans ha),
            honly, .length hint hresized ?_⟩
          rw [getProperty_length, hresized.size]
      · have hwrite : h.setProperty (.array id) key value = .error (.cannotSet key .array) := by
          rw [setProperty, hindex]
          exact if_neg hlength
        exact .inl (hrefused (.key hindex hlength) hwrite)
  | _ => exact .inl (hrefused (.plain rfl) rfl)

/-- Past the end of an array the gap is filled up, and up to the longest array there is. -/
theorem store_exact_gap :
    ∃ after, store (.array 0) "3" .null ⟨#[#[.bool true]], #[]⟩ = .ok () after ∧
      (after.elements 0).size = 4 ∧ (after.elements 0)[1]? = some .undefined ∧
        after.getProperty (.array 0) "3" = .ok .null ∧
          ∃ e, store (.array 0) "1048576" .null ⟨#[#[.bool true]], #[]⟩ = .error e ⟨#[#[.bool true]], #[]⟩ := by
  have hwithin : (Value.array 0).Within ⟨#[#[.bool true]], #[]⟩ 0 := Nat.zero_lt_one
  have hthree : arrayIndex? "3" = some 3 := by decide
  have hfar : arrayIndex? "1048576" = some 1048576 := by decide
  have hrefused : Refused ⟨#[#[.bool true]], #[]⟩ .null (.array 0) "1048576" := (refused_index_iff hfar).2 (by decide)
  rcases store_exact hwithin "1048576" .null with ⟨-, hfails⟩ | ⟨hnot, -⟩
  · rcases store_exact hwithin "3" .null with ⟨hr, -⟩ | ⟨-, after, -, hstore, -, hstored⟩
    · exact absurd ((refused_index_iff hthree).1 hr) (by decide)
    · obtain ⟨helements, hread⟩ := hstored.of_index hthree
      obtain ⟨e, -, he⟩ := hfails
      exact ⟨after, hstore, helements.size, helements.gaps 1 (by decide) (by decide), hread, e, he⟩
  · exact absurd hrefused hnot

end InPlace
end Heap
end LatentExpr
