import LatentExpr.Proofs.Heap.Growth
import LatentExpr.Proofs.Heap.Joined
import LatentExpr.Proofs.Number.Clamped

/-!
Slices of arrays. `Names` is the rule by which an argument names a place: `undefined` names a default, any other
value the place that its number is cut to, counted from the end if that is negative and clamped to the array. A
slice is a fresh array of the elements between two places. What an argument names stays the same when the heap
grows, so an array cut in two at one place can be put together again (`slices_by_rule`).
-/
namespace LatentExpr

open Magnitude

attribute [local irreducible] Magnitude.unitsInOne

/-! ### The rule -/

/-- The place of a number among `n` members: cut toward zero, counted from the end if that is negative, and clamped.
NaN counts as zero. -/
inductive Number.Names (n : Nat) : Number → Nat → Prop where
  | nan : Names n .nan 0
  | finite {negative : Bool} {m : Magnitude} (hm : m.isInfinite = false) {cut : Int}
    (hcut : cut = (signedUnits negative m).tdiv unitsInOne) {i : Nat}
    (hi : (i : Int) = max 0 (min (if cut < 0 then cut + n else cut) n)) : Names n (.signed negative m) i
  | beyond : Names n .infinity n
  | before : Names n infinity.neg 0

/-- The place of an argument among `n` members: `undefined` names a default, any other value the place of its
number. -/
inductive Heap.Names (h : Heap) (n default : Nat) : Value → Nat → Prop where
  | missing : Names h n default .undefined default
  | number {v : Value} (hv : v ≠ .undefined) {i : Nat} (hi : (h.toNumber v).Names n i) : Names h n default v i

theorem Number.Names.unique {n i j : Nat} {x : Number} (hi : x.Names n i) (hj : x.Names n j) : i = j := by
  cases hi with
  | nan =>
    cases hj
    rfl
  | finite hm hcut hi =>
    cases hj with
    | finite _ hcut' hj =>
      rw [hcut] at hi
      rw [hcut'] at hj
      exact Int.ofNat_inj.1 (hi.trans hj.symm)
    | beyond => cases hm
    | before => cases hm
  | beyond =>
    cases hj with
    | finite hm => cases hm
    | beyond => rfl
  | before =>
    cases hj with
    | finite hm => cases hm
    | before => rfl

/-- The rule names one place. -/
theorem Heap.Names.unique {h : Heap} {n default i j : Nat} {v : Value} (hi : h.Names n default v i)
    (hj : h.Names n default v j) : i = j := by
  cases hi with
  | missing =>
    cases hj with
    | missing => rfl
    | number hv => exact absurd rfl hv
  | number hv hi =>
    cases hj with
    | missing => exact absurd rfl hv
    | number _ hj => exact hi.unique hj

/-- No place outside is named. -/
theorem Number.Names.le {n i : Nat} {x : Number} (hi : x.Names n i) : i ≤ n := by
  cases hi with
  | nan => exact Nat.zero_le n
  | finite _ _ hi => omega
  | beyond => exact Nat.le_refl n
  | before => exact Nat.zero_le n

theorem Number.names_finite (negative : Bool) {m : Magnitude} (hm : m.isInfinite = false) (n : Nat) :
    Names n (.signed negative m)
      (if negative ∧ 0 < m.units / unitsInOne then n - m.units / unitsInOne else min (m.units / unitsInOne) n) := by
  refine .finite hm rfl ?_
  cases negative with
  | false =>
    have hcut : (signedUnits false m).tdiv unitsInOne = (m.units / unitsInOne : Nat) := rfl
    rw [hcut, if_neg (by simp)]
    generalize m.units / unitsInOne = distance
    rw [if_neg (by omega)]
    omega
  | true =>
    have hcut : (signedUnits true m).tdiv unitsInOne = -(m.units / unitsInOne : Nat) := Int.neg_tdiv ..
    rw [hcut]
    generalize m.units / unitsInOne = distance
    by_cases hpos : 0 < distance
    · rw [if_pos ⟨rfl, hpos⟩, if_pos (by omega)]
      omega
    · rw [if_neg fun h => hpos h.2, if_neg (by omega)]
      omega

namespace Heap
variable {h h' : Heap} {n default id : Nat} {v k : Value}

theorem names_relativeIndex (h : Heap) (v : Value) (n default : Nat) :
    h.Names n default v (relativeIndex h v n default) := by
  by_cases hv : v = .undefined
  · subst hv
    exact .missing
  rw [relativeIndex_of_defined h hv]
  refine .number hv ?_
  cases h.toNumber v with
  | nan => exact .nan
  | signed negative m =>
    by_cases hm : m.isInfinite = true
    · obtain rfl : m = .infinite := eq_of_code (beq_iff_eq.1 hm)
      cases negative with
      | false =>
        simp only [Number.clamped, hm, if_true, Nat.min_self, Bool.false_eq_true, false_and, if_false]
        exact .beyond
      | true =>
        simp only [Number.clamped, hm, if_true, Nat.min_self, true_and, Nat.sub_self]
        split
        · exact .before
        · rename_i hn
          rw [Nat.eq_zero_of_not_pos hn]
          exact .before
    · simp only [Number.clamped, if_neg hm]
      exact Number.names_finite negative (Bool.eq_false_iff.2 hm) n

theorem Names.le {i : Nat} (hi : h.Names n default v i) (hdefault : default ≤ n) : i ≤ n := by
  cases hi with
  | missing => exact hdefault
  | number _ hi => exact hi.le

/-! ### Slices -/

/-- A slice was made: a fresh array of the elements of another one from `i` up to `j`, both inside it. -/
structure Sliced (h after : Heap) (id i j : Nat) : Prop where
  inside : i ≤ (h.elements id).size ∧ j ≤ (h.elements id).size
  grows : h.Grows after
  fresh : after.arrays.size = h.arrays.size + 1
  elements : (after.elements h.arrays.size).toList = ((h.elements id).toList.drop i).take (j - i)
  empty : j ≤ i → after.elements h.arrays.size = #[]

theorem size_newArray (h : Heap) (elements : Array Value) :
    (h.newArray elements).2.arrays.size = h.arrays.size + 1 := by
  simp [newArray]

theorem elements_newArray_self (h : Heap) (elements : Array Value) :
    (h.newArray elements).2.elements h.arrays.size = elements := by
  rw [elements_newArray, if_pos rfl]

theorem sliced_newArray {i j : Nat} (hi : i ≤ (h.elements id).size) (hj : j ≤ (h.elements id).size) :
    Sliced h (h.newArray ((h.elements id).extract i j)).2 id i j where
  inside := ⟨hi, hj⟩
  grows := grows_newArray h _
  fresh := size_newArray h _
  elements := by rw [elements_newArray_self, Array.toList_extract, List.extract_eq_take_drop]
  empty hle := by rw [elements_newArray_self, Array.extract_empty_of_stop_le_start hle]

/-- A call of `slice` with the places that its arguments name. -/
theorem callArrayMethod_slice (h : Heap) (id : Nat) (args : List Value) :
    ∃ i j, h.Names (h.elements id).size 0 (argument args 0) i ∧
      h.Names (h.elements id).size (h.elements id).size (argument args 1) j ∧
        h.callArrayMethod .slice (.array id) args =
          (.ok (.array h.arrays.size), (h.newArray ((h.elements id).extract i j)).2) :=
  ⟨_, _, names_relativeIndex .., names_relativeIndex .., rfl⟩

/-! ### Ranges -/

/-- The elements of a range, `none` if it leaves the array. -/
def range? (elements : Array Value) (first last : Nat) : Option (Array Value) :=
  if first ≤ last ∧ last ≤ elements.size then some (elements.extract first last) else none

/-- The elements of a slice, its places found in floating point and a range the wrong way round taken as
empty. -/
def sliceInFloats? (h : Heap) (elements : Array Value) (args : List Value) : Option (Array Value) :=
  let first := indexInFloats h (argument args 0) elements.size 0
  let last := indexInFloats h (argument args 1) elements.size elements.size
  range? elements first (max last first)

/-- The range of a slice is inside the array. -/
theorem sliceInFloats?_eq (h : Heap) {elements : Array Value} (hsize : elements.size < 2 ^ 53)
    (args : List Value) : sliceInFloats? h elements args =
      some (elements.extract (relativeIndex h (argument args 0) elements.size 0)
        (relativeIndex h (argument args 1) elements.size elements.size)) := by
  simp only [sliceInFloats?, indexInFloats_eq h _ hsize]
  have hfirst := (names_relativeIndex h (argument args 0) elements.size 0).le (Nat.zero_le _)
  have hlast := (names_relativeIndex h (argument args 1) elements.size elements.size).le (Nat.le_refl _)
  generalize relativeIndex h (argument args 0) elements.size 0 = first at hfirst ⊢
  generalize relativeIndex h (argument args 1) elements.size elements.size = last at hlast ⊢
  rw [range?, if_pos ⟨Nat.le_max_right .., Nat.max_le.2 ⟨hlast, hfirst⟩⟩]
  rcases Nat.le_total first last with hle | hle
  · rw [Nat.max_eq_left hle]
  · rw [Nat.max_eq_right hle, Array.extract_empty_of_stop_le_start (Nat.le_refl _),
      Array.extract_empty_of_stop_le_start hle]

/-! ### Growth -/

/-- Arrays hold only arrays that are in the heap. -/
def ArraysInside (h : Heap) : Prop := ∀ i j, h.HoldsArray i j → j < h.arrays.size

section Grows
variable (hg : h.Grows h') (hin : h.ArraysInside)
include hg hin

/-- An array has the same text in a heap that has grown. -/
theorem Grows.textInside (track : List Nat) (hid : id < h.arrays.size) :
    h'.textInside track id = h.textInside track id := by
  induction track, id using walk_induction (h := h) with
  | step track id ih =>
    by_cases hmet : id ∈ track
    · rw [textInside_of_mem hmet, textInside_of_mem hmet]
    · rw [textInside_of_notMem hmet, textInside_of_notMem hmet, hg.elements hid]
      refine congrArg _ (List.map_congr_left fun v hv => Value.partText_congr fun inner hinner => ?_)
      have hholds : h.HoldsArray id inner := by
        rw [HoldsArray, ← hinner]
        exact Array.mem_toList_iff.1 hv
      exact ih inner hmet hholds (hin id inner hholds)

theorem Grows.toNumber (hk : ∀ inner, k = .array inner → inner < h.arrays.size) :
    h'.toNumber k = h.toNumber k := by
  cases k with
  | array inner =>
    show Number.ofText (h'.text (.array inner)) = Number.ofText (h.text (.array inner))
    rw [text_array, text_array, hg.textInside hin [] (hk inner rfl)]
  | _ => rfl

/-- A value names the same place in a heap that has grown. -/
theorem Grows.names (hk : ∀ inner, k = .array inner → inner < h.arrays.size) {i : Nat}
    (hi : h.Names n default k i) : h'.Names n default k i := by
  cases hi with
  | missing => exact .missing
  | number hv hi =>
    rw [← hg.toNumber hin hk] at hi
    exact .number hv hi

end Grows

/-! ### Cutting in two -/

/-- What is not `undefined` names no default. -/
theorem Names.of_default {i default' : Nat} (hk : k ≠ .undefined) (hi : h.Names n default k i) :
    h.Names n default' k i := by
  cases hi with
  | missing => exact absurd rfl hk
  | number hv hi => exact .number hv hi

theorem names_zero (h : Heap) (n default : Nat) : h.Names n default (.number .zero) 0 := by
  have hcut : (0 : Int) = (Number.signedUnits false .zero).tdiv unitsInOne := (Int.zero_tdiv _).symm
  have hnumber : Number.Names n (.signed false .zero) 0 := .finite isInfinite_zero hcut (by omega)
  refine .number ?_ hnumber
  nofun

/-- The parts of an array before and behind one place, one after the other, are the array. -/
theorem extract_append_extract_self {elements : Array Value} {j : Nat} (hj : j ≤ elements.size) :
    elements.extract 0 j ++ elements.extract j elements.size = elements := by
  rw [Array.extract_append_extract, Nat.min_eq_left (Nat.zero_le _), Nat.max_eq_right hj, Array.extract_size]

/-- An array that is cut in two at a place, by the calls one after the other, is put together again. -/
theorem slices_rejoined (hin : h.ArraysInside) (hid : id < h.arrays.size) (hdefined : k ≠ .undefined)
    (hk : ∀ inner, k = .array inner → inner < h.arrays.size) :
    ∃ front back whole h₁ h₂ h₃,
      h.callArrayMethod .slice (.array id) [.number .zero, k] = (.ok front, h₁) ∧
        h₁.callArrayMethod .slice (.array id) [k] = (.ok back, h₂) ∧
          h₂.callArrayMethod .concat front [back] = (.ok (.array whole), h₃) ∧
            h.Grows h₃ ∧ h₃.elements whole = h.elements id := by
  obtain ⟨i, j, hi, hj, hfront⟩ := callArrayMethod_slice h id [.number .zero, k]
  obtain rfl : i = 0 := hi.unique (names_zero ..)
  have hj' := hj.le (Nat.le_refl _)
  generalize hh₁ : (h.newArray ((h.elements id).extract 0 j)).2 = h₁ at hfront
  have hg₁ : h.Grows h₁ := hh₁ ▸ grows_newArray ..
  have hsize₁ : h₁.arrays.size = h.arrays.size + 1 := hh₁ ▸ size_newArray ..
  have hself : h₁.elements id = h.elements id := hg₁.elements hid
  obtain ⟨i', j', hi', hlast, hback⟩ := callArrayMethod_slice h₁ id [k]
  rw [hself] at hi' hlast hback
  -- The second call takes `k` for the same place, though the heap has grown.
  obtain rfl : i' = j := hi'.unique ((hg₁.names hin hk hj).of_default hdefined)
  obtain rfl : j' = (h.elements id).size := hlast.unique .missing
  generalize hh₂ : (h₁.newArray ((h.elements id).extract i' (h.elements id).size)).2 = h₂ at hback
  have hg₂ : h₁.Grows h₂ := hh₂ ▸ grows_newArray ..
  have hfrontElements : h₂.elements h.arrays.size = (h.elements id).extract 0 i' := by
    rw [hg₂.elements (by omega), ← hh₁, elements_newArray_self]
  have hbackElements : h₂.elements h₁.arrays.size = (h.elements id).extract i' (h.elements id).size := by
    rw [← hh₂, elements_newArray_self]
  refine ⟨_, _, _, h₁, h₂, _, hfront, hback, rfl, (hg₁.trans hg₂).trans (grows_newArray ..), ?_⟩
  refine (elements_newArray_self h₂ _).trans ?_
  show h₂.elements h.arrays.size ++ h₂.elements h₁.arrays.size = _
  rw [hfrontElements, hbackElements, extract_append_extract_self hj']

/-- Slices follow the rule. A slice is a fresh array of the elements from the place that the first argument names up
to the place that the second one names; both are places that floating point finds too, as long as lengths are exact
there, and their range is inside the array; and an array cut in two at whatever place is put together again. -/
theorem slices_by_rule (h : Heap) (id : Nat) :
    (∀ args, ∃ i j after,
      h.Names (h.elements id).size 0 (argument args 0) i ∧
        h.Names (h.elements id).size (h.elements id).size (argument args 1) j ∧
          h.callArrayMethod .slice (.array id) args = (.ok (.array h.arrays.size), after) ∧
            h.Sliced after id i j) ∧
    ((h.elements id).size < 2 ^ 53 → ∀ args, ∃ part, h.sliceInFloats? (h.elements id) args = some part ∧
      h.callArrayMethod .slice (.array id) args = (.ok (.array h.arrays.size), (h.newArray part).2)) ∧
    (h.ArraysInside → id < h.arrays.size → ∀ k, k ≠ .undefined →
      (∀ inner, k = .array inner → inner < h.arrays.size) →
        ∃ front back whole h₁ h₂ h₃,
          h.callArrayMethod .slice (.array id) [.number .zero, k] = (.ok front, h₁) ∧
            h₁.callArrayMethod .slice (.array id) [k] = (.ok back, h₂) ∧
              h₂.callArrayMethod .concat front [back] = (.ok (.array whole), h₃) ∧
                h.Grows h₃ ∧ h₃.elements whole = h.elements id) := by
  refine ⟨fun args => ?_, fun hsize args => ⟨_, sliceInFloats?_eq h hsize args, rfl⟩,
    fun hin hid k hdefined hk => slices_rejoined hin hid hdefined hk⟩
  obtain ⟨i, j, hi, hj, hcall⟩ := callArrayMethod_slice h id args
  exact ⟨i, j, _, hi, hj, hcall, sliced_newArray (hi.le (Nat.zero_le _)) (hj.le (Nat.le_refl _))⟩

/-- Three elements, and an array of one number. -/
def cuttable : Heap := ⟨#[#[.bool true, .null, .array 1], #[.number (.ofInt (-1))]], #[]⟩

/-- An array names the place that its text is the number of. -/
theorem slices_by_rule_cuttable :
    cuttable.ArraysInside ∧ (cuttable.elements 0).size < 2 ^ 53 ∧ cuttable.Names 3 3 (.array 1) 2 ∧
      (∃ part, cuttable.sliceInFloats? (cuttable.elements 0) [.array 1] = some part ∧
        cuttable.callArrayMethod .slice (.array 0) [.array 1] = (.ok (.array 2), (cuttable.newArray part).2)) ∧
      ∃ front back whole h₁ h₂ h₃,
        cuttable.callArrayMethod .slice (.array 0) [.number .zero, .array 1] = (.ok front, h₁) ∧
          h₁.callArrayMethod .slice (.array 0) [.array 1] = (.ok back, h₂) ∧
            h₂.callArrayMethod .concat front [back] = (.ok (.array whole), h₃) ∧
              cuttable.Grows h₃ ∧ h₃.elements whole = cuttable.elements 0 := by
  have hin : cuttable.ArraysInside := by
    intro i j hj
    rcases i with _ | _ | i
    · simp_all [HoldsArray, cuttable, Heap.elements]
    · simp [HoldsArray, cuttable, Heap.elements] at hj
    · simp [HoldsArray, cuttable, Heap.elements] at hj
  have hsize : (cuttable.elements 0).size < 2 ^ 53 := by decide
  obtain ⟨-, hfloats, hrejoined⟩ := slices_by_rule cuttable 0
  refine ⟨hin, hsize, ?_, hfloats hsize _, hrejoined hin (by decide) (.array 1) (fun h => Value.noConfusion h) ?_⟩
  · have hplace := names_relativeIndex cuttable (.array 1) 3 3
    have hrelative : relativeIndex cuttable (.array 1) 3 3 = 2 := by decide +kernel
    rwa [hrelative] at hplace
  · rintro inner ⟨⟩
    decide

end Heap

end LatentExpr
