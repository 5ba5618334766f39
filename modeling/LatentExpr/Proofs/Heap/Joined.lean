import LatentExpr.Proofs.Heap.Structural
import LatentExpr.Value.Convert
import Mathlib.Algebra.Order.BigOperators.Group.List

/-!
The text of an array and its elements joined. `textInside` is the text of an array without a bound on how deep the walk
goes: the arrays that it is inside of are different ones, of which there are finitely many. `join` starts a walk of its
own in each element, so an array that holds itself is written once more before it counts as met again. The two texts
are the same exactly if that does not show: the array is met nowhere inside itself, or it has no second element and so
no comma of its own (`join_eq_text_iff`).
-/
namespace LatentExpr

/-! ### Lengths of joined texts -/

section
variable {α : Type} {xs : List α} {f g : α → String} (separator : String)

theorem length_intercalate_add {texts : List String} (hne : texts ≠ []) :
    (separator.intercalate texts).length + separator.length =
      (texts.map fun text => text.length + separator.length).sum := by
  induction texts with
  | nil => exact absurd rfl hne
  | cons text rest ih =>
    by_cases hrest : rest = []
    · subst hrest
      simp
    · rw [String.intercalate_cons_of_ne_nil hrest, List.map_cons, List.sum_cons, ← ih hrest, String.length_append,
        String.length_append]
      omega

theorem length_intercalate_le (hle : ∀ x ∈ xs, (f x).length ≤ (g x).length) :
    (separator.intercalate (xs.map f)).length ≤ (separator.intercalate (xs.map g)).length := by
  by_cases hne : xs = []
  · subst hne
    rfl
  · refine Nat.le_of_add_le_add_right (b := separator.length) ?_
    rw [length_intercalate_add separator (by simpa), length_intercalate_add separator (by simpa), List.map_map,
      List.map_map]
    exact List.sum_le_sum fun x hx => Nat.add_le_add_right (hle x hx) _

theorem length_intercalate_lt (hle : ∀ x ∈ xs, (f x).length ≤ (g x).length)
    (hlt : ∃ x ∈ xs, (f x).length < (g x).length) :
    (separator.intercalate (xs.map f)).length < (separator.intercalate (xs.map g)).length := by
  have hne : xs ≠ [] := List.ne_nil_of_mem hlt.choose_spec.1
  refine Nat.lt_of_add_lt_add_right (n := separator.length) ?_
  rw [length_intercalate_add separator (by simpa), length_intercalate_add separator (by simpa), List.map_map,
    List.map_map]
  obtain ⟨x, hx, hxlt⟩ := hlt
  exact List.sum_lt_sum _ _ (fun x hx => Nat.add_le_add_right (hle x hx) _) ⟨x, hx, Nat.add_lt_add_right hxlt _⟩

/-- Between two texts stands a separator. -/
theorem length_intercalate_pos {texts : List String} (hsize : 1 < texts.length) :
    0 < (",".intercalate texts).length := by
  match texts, hsize with
  | first :: second :: rest, _ =>
    rw [String.intercalate_cons_cons, String.length_append, String.length_append]
    have : ",".length = 1 := rfl
    omega

end

/-! ### Texts without a bound -/

/-- The text of a value among others, given the texts of arrays. -/
def Value.partText (ofArray : Nat → String) : Value → String
  | .undefined | .null => ""
  | .array id => ofArray id
  | v => v.plainText

theorem Value.partText_congr {ofArray ofArray' : Nat → String} {v : Value}
    (hv : ∀ inner, v = .array inner → ofArray inner = ofArray' inner) : v.partText ofArray = v.partText ofArray' := by
  cases v with
  | array inner => exact hv inner rfl
  | _ => rfl

namespace Heap
variable {h : Heap} {track track' : List Nat} {id a : Nat}

/-- An array is an element of another one. -/
def HoldsArray (h : Heap) (i j : Nat) : Prop := .array j ∈ h.elements i

/-- The arrays of a heap. -/
def arrayIds (h : Heap) : Finset Nat := Finset.range h.arrays.size

theorem mem_arrayIds {v : Value} (hv : v ∈ h.elements id) : id ∈ h.arrayIds :=
  Finset.mem_range.2 (lt_of_mem_elements hv)

/-- What holds of an array inside a track if it holds of its elements inside the array and the track, unless the array
is on the track, holds of every walk. -/
theorem walk_induction {motive : List Nat → Nat → Prop}
    (step : ∀ track id, (∀ inner, id ∉ track → h.HoldsArray id inner → motive (id :: track) inner) → motive track id)
    (track : List Nat) (id : Nat) : motive track id := by
  induction hn : offTrack h.arrayIds track using Nat.strong_induction_on generalizing track id with
  | _ n ih =>
    subst hn
    exact step track id fun inner hnew hinner => ih _ (offTrack_cons_lt (mem_arrayIds hinner) hnew) _ _ rfl

/-- The text of an array inside the arrays of a track, however deep the walk goes. -/
def textInside (h : Heap) (track : List Nat) (id : Nat) : String :=
  if _hmet : id ∈ track then ""
  else
    ",".intercalate ((h.elements id).toList.attach.map fun ⟨v, _⟩ =>
      v.partText fun inner => h.textInside (id :: track) inner)
termination_by offTrack h.arrayIds track
decreasing_by
  rename_i hv
  exact offTrack_cons_lt (mem_arrayIds (Array.mem_toList_iff.1 hv)) _hmet

theorem textInside_of_mem (hid : id ∈ track) : h.textInside track id = "" := by
  rw [textInside, dif_pos hid]

theorem textInside_of_notMem (hid : id ∉ track) : h.textInside track id =
    ",".intercalate ((h.elements id).toList.map (Value.partText (h.textInside (id :: track)))) := by
  rw [textInside, dif_neg hid]
  exact congrArg _ (List.attach_map_val (f := Value.partText (h.textInside (id :: track))) ..)

/-- Elements have the same texts inside two tracks if arrays among them do. -/
theorem map_partText_congr
    (hid : ∀ inner, h.HoldsArray id inner → h.textInside track inner = h.textInside track' inner) :
    (h.elements id).toList.map (Value.partText (h.textInside track)) =
      (h.elements id).toList.map (Value.partText (h.textInside track')) := by
  refine List.map_congr_left fun v hv => Value.partText_congr fun inner hinner => hid inner ?_
  rw [HoldsArray, ← hinner]
  exact Array.mem_toList_iff.1 hv

/-- A walk that has enough depth is the one without a bound. -/
theorem arrayText_eq_textInside {fuel : Nat} (hfuel : offTrack h.arrayIds track < fuel) :
    h.arrayText fuel track id = h.textInside track id := by
  induction fuel generalizing track id with
  | zero => exact absurd hfuel (Nat.not_lt_zero _)
  | succ fuel ih =>
    rw [arrayText, List.contains_eq_mem]
    by_cases hmet : id ∈ track
    · rw [if_pos (decide_eq_true hmet), textInside_of_mem hmet]
    · rw [if_neg (by simpa using hmet), textInside_of_notMem hmet]
      refine congrArg _ (List.map_congr_left fun v hv => ?_)
      cases v with
      | array inner =>
        have := offTrack_cons_lt (mem_arrayIds (Array.mem_toList_iff.1 hv)) hmet
        exact ih (by omega)
      | _ => rfl

theorem text_array (h : Heap) (id : Nat) : h.text (.array id) = h.textInside [] id := by
  refine arrayText_eq_textInside (Nat.lt_succ_of_le ((offTrack_le _ _).trans ?_))
  rw [arrayIds, Finset.card_range]

/-- How `join` writes a value. -/
theorem partText_textInside (h : Heap) (v : Value) :
    v.partText (h.textInside []) = if v.isNullish then "" else h.text v := by
  cases v with
  | array inner => exact (h.text_array inner).symm
  | _ => rfl

/-! ### An array more on the track -/

/-- An array that is not met, or that is empty wherever it is met, may be on the track or not. -/
theorem textInside_insert (hmem : ∀ y, y ∈ track' ↔ y = a ∨ y ∈ track)
    (hempty : ∀ inside, track ⊆ inside → Relation.ReflTransGen h.HoldsArray id a → h.textInside inside a = "") :
    h.textInside track' id = h.textInside track id := by
  induction track, id using h.walk_induction generalizing track' with
  | step track id ih =>
    by_cases hid : id ∈ track
    · rw [textInside_of_mem hid, textInside_of_mem ((hmem id).2 (.inr hid))]
    by_cases ha : id = a
    · rw [textInside_of_mem ((hmem id).2 (.inl ha)), ha]
      exact (hempty track (List.Subset.refl _) (ha ▸ .refl)).symm
    have hid' : id ∉ track' := fun hmet => ((hmem id).1 hmet).elim ha hid
    rw [textInside_of_notMem hid, textInside_of_notMem hid']
    refine congrArg _ (map_partText_congr fun inner hinner => ?_)
    refine ih inner hid hinner (fun y => ?_) fun inside hsub hreach => ?_
    · rw [List.mem_cons, List.mem_cons, hmem]
      exact or_left_comm
    · exact hempty inside (fun y hy => hsub (List.mem_cons_of_mem _ hy)) (.head hinner hreach)

/-- A longer track leaves less of a text. -/
theorem length_textInside_le (hsub : track ⊆ track') :
    (h.textInside track' id).length ≤ (h.textInside track id).length := by
  induction track, id using h.walk_induction generalizing track' with
  | step track id ih =>
    by_cases hid' : id ∈ track'
    · rw [textInside_of_mem hid']
      exact Nat.zero_le _
    have hid : id ∉ track := fun hmet => hid' (hsub hmet)
    rw [textInside_of_notMem hid, textInside_of_notMem hid']
    refine length_intercalate_le _ fun v hv => ?_
    cases v with
    | array inner => exact ih inner hid (Array.mem_toList_iff.1 hv) (List.cons_subset_cons _ hsub)
    | _ => exact le_rfl

theorem length_partText_le (hsub : track ⊆ track') (v : Value) :
    (v.partText (h.textInside track')).length ≤ (v.partText (h.textInside track)).length := by
  cases v with
  | array inner => exact length_textInside_le hsub
  | _ => exact le_rfl

/-! ### An array that is met again -/

/-- The arrays that hold one another on a way outside of a track. -/
def Avoids (h : Heap) (track : List Nat) : Nat → Nat → Prop :=
  Relation.ReflTransGen fun i j => i ∉ track ∧ h.HoldsArray i j

/-- A way to an array either avoids another one too, or there is such a way from the last time it is at that one. -/
theorem Avoids.last {i : Nat} (hi : h.Avoids track i a) (x : Nat) :
    h.Avoids (x :: track) i a ∨ ∃ y, h.HoldsArray x y ∧ h.Avoids (x :: track) y a := by
  induction hi using Relation.ReflTransGen.head_induction_on with
  | refl => exact .inl .refl
  | @head i j hij _ ih =>
    rcases ih with hj | hlast
    · by_cases hx : i = x
      · exact .inr ⟨j, hx ▸ hij.2, hj⟩
      · exact .inl (.head ⟨fun hmem => (List.mem_cons.1 hmem).elim hx hij.1, hij.2⟩ hj)
    · exact .inr hlast

theorem Avoids.enter (hid : h.Avoids track id a) (hne : id ≠ a) :
    id ∉ track ∧ ∃ y, h.HoldsArray id y ∧ h.Avoids (id :: track) y a := by
  have hstart {track : List Nat} (hid : h.Avoids track id a) : id ∉ track := by
    rcases Relation.ReflTransGen.cases_head hid with heq | ⟨_, ⟨hnew, -⟩, -⟩
    · exact absurd heq hne
    · exact hnew
  refine ⟨hstart hid, ?_⟩
  rcases hid.last id with hself | hlast
  · exact absurd List.mem_cons_self (hstart hself)
  · exact hlast

/-- An array with a comma of its own that is met on a way into a text makes it longer unless it is on the track. -/
theorem length_textInside_lt (hsub : track ⊆ track') (ha : a ∉ track) (ha' : a ∈ track')
    (hsize : 1 < (h.elements a).size) (hway : h.Avoids track' id a) :
    (h.textInside track' id).length < (h.textInside track id).length := by
  induction track, id using h.walk_induction generalizing track' with
  | step track id ih =>
    by_cases hid : id = a
    · subst hid
      rw [textInside_of_mem ha', textInside_of_notMem ha]
      refine length_intercalate_pos ?_
      rwa [List.length_map, Array.length_toList]
    obtain ⟨hid', y, hy, hway⟩ := hway.enter hid
    have hnew : id ∉ track := fun hmet => hid' (hsub hmet)
    rw [textInside_of_notMem hnew, textInside_of_notMem hid']
    have hsub' := List.cons_subset_cons id hsub
    refine length_intercalate_lt _ (fun v _ => length_partText_le hsub' v) ⟨.array y, Array.mem_toList_iff.2 hy, ?_⟩
    have hne : a ∉ id :: track := fun hmem => (List.mem_cons.1 hmem).elim (Ne.symm hid) ha
    exact ih y hnew hy hsub' hne (List.mem_cons_of_mem _ ha') hway

/-- An array can be reached from itself through arrays and their elements. -/
def Recurs (h : Heap) (id : Nat) : Prop := Relation.TransGen h.HoldsArray id id

/-- Whoever recurs has an element from which a way leads back that comes to it at its end only. -/
theorem Recurs.way_back (hid : h.Recurs id) : ∃ y, h.HoldsArray id y ∧ h.Avoids [id] y id := by
  obtain ⟨y, hy, hback⟩ := Relation.TransGen.head'_iff.1 hid
  have hfree : h.Avoids [] y id := Relation.ReflTransGen.mono (fun _ _ hij => ⟨List.not_mem_nil, hij⟩) _ _ hback
  rcases hfree.last id with hway | hlast
  · exact ⟨y, hy, hway⟩
  · exact hlast

/-- The elements of an array that does not recur do not come to it. -/
theorem textInside_single_of_not_recurs (hid : ¬ h.Recurs id) {inner : Nat} (hinner : h.HoldsArray id inner) :
    h.textInside [id] inner = h.textInside [] inner :=
  textInside_insert (fun y => by simp) fun _ _ hreach => absurd (.head' hinner hreach) hid

/-- An array with one element has no comma of its own, so it is empty wherever that element is on the track. -/
theorem textInside_of_single {inner : Nat} (hid : (h.elements id).toList = [.array inner]) (hmet : inner ∈ track) :
    h.textInside track id = "" := by
  by_cases hself : id ∈ track
  · exact textInside_of_mem hself
  · rw [textInside_of_notMem hself, hid]
    simp only [List.map_cons, List.map_nil, String.intercalate_singleton]
    exact textInside_of_mem (List.mem_cons_of_mem _ hmet)

theorem textInside_single_of_single {inner : Nat} (hid : (h.elements id).toList = [.array inner]) :
    h.textInside [id] inner = h.textInside [] inner := by
  have hnil : inner ∉ [] := List.not_mem_nil
  by_cases hself : inner = id
  · subst hself
    rw [textInside_of_mem List.mem_cons_self, textInside_of_notMem hnil, hid]
    simp only [List.map_cons, List.map_nil, String.intercalate_singleton]
    exact (textInside_of_mem List.mem_cons_self).symm
  · rw [textInside_of_notMem hnil, textInside_of_notMem (by simpa)]
    refine congrArg _ (map_partText_congr fun y _ => textInside_insert (a := id) (fun y => ?_) fun inside hsub _ => ?_)
    · simp only [List.mem_cons, List.not_mem_nil, or_false]
      exact or_comm
    · exact textInside_of_single hid (hsub List.mem_cons_self)

theorem eq_singleton_of_mem {α : Type} {xs : List α} {x : α} (hlength : xs.length ≤ 1) (hx : x ∈ xs) : xs = [x] := by
  match xs, hlength with
  | [y], _ => rw [List.mem_singleton.1 hx]

theorem call_join (h : Heap) (id : Nat) {args : List Value}
    (hargs : argument args 0 = .undefined ∨ argument args 0 = .string ",") :
    h.callArrayMethod .join (.array id) args =
      (.ok (.string (",".intercalate ((h.elements id).toList.map (Value.partText (h.textInside []))))), h) := by
  have hparts : Value.partText (h.textInside []) = fun v => if v.isNullish then "" else h.text v :=
    funext h.partText_textInside
  rw [hparts, callArrayMethod, ArrayMethod.apply]
  rcases hargs with hargs | hargs <;> rw [hargs] <;> rfl

/-- Joining the elements of an array with a comma gives a text, which is the text of the array exactly if the array has
at most one element or does not recur. The heap stays as it is. -/
theorem join_eq_text_iff (h : Heap) (id : Nat) (args : List Value)
    (hargs : argument args 0 = .undefined ∨ argument args 0 = .string ",") :
    ∃ joined, h.callArrayMethod .join (.array id) args = (.ok (.string joined), h) ∧
      (joined = h.text (.array id) ↔ (h.elements id).size ≤ 1 ∨ ¬ h.Recurs id) := by
  refine ⟨_, call_join h id hargs, ?_⟩
  rw [text_array, textInside_of_notMem List.not_mem_nil]
  constructor
  · intro heq
    by_contra hnot
    rw [not_or, not_le, not_not] at hnot
    obtain ⟨y, hy, hway⟩ := hnot.2.way_back
    have hlt := length_textInside_lt (List.nil_subset [id]) List.not_mem_nil List.mem_cons_self hnot.1 hway
    have hlonger := length_intercalate_lt "," (fun v _ => length_partText_le (List.nil_subset [id]) v)
      ⟨.array y, Array.mem_toList_iff.2 hy, hlt⟩
    rw [heq] at hlonger
    exact absurd hlonger (lt_irrefl _)
  · intro hfits
    refine congrArg _ (map_partText_congr fun inner hinner => Eq.symm ?_)
    rcases hfits with hsize | hno
    · exact textInside_single_of_single (eq_singleton_of_mem hsize (Array.mem_toList_iff.2 hinner))
    · exact textInside_single_of_not_recurs hno hinner

/-- An array that holds a value and itself is joined to more than its text, one that holds only itself is not. -/
theorem join_eq_text_iff_self :
    (∃ joined, (⟨#[#[.bool true, .array 0]], #[]⟩ : Heap).callArrayMethod .join (.array 0) [] =
        (.ok (.string joined), ⟨#[#[.bool true, .array 0]], #[]⟩) ∧
          joined ≠ (⟨#[#[.bool true, .array 0]], #[]⟩ : Heap).text (.array 0)) ∧
      loops.callArrayMethod .join (.array 0) [.string ","] = (.ok (.string (loops.text (.array 0))), loops) := by
  constructor
  · obtain ⟨joined, hcall, hiff⟩ := join_eq_text_iff ⟨#[#[.bool true, .array 0]], #[]⟩ 0 [] (.inl rfl)
    have hself : (⟨#[#[.bool true, .array 0]], #[]⟩ : Heap).Recurs 0 := .single (by simp [HoldsArray, elements])
    refine ⟨joined, hcall, fun heq => ?_⟩
    rcases hiff.1 heq with hsize | hno
    · exact absurd hsize (by decide)
    · exact hno hself
  · obtain ⟨joined, hcall, hiff⟩ := join_eq_text_iff loops 0 [.string ","] (.inr rfl)
    rw [hcall, hiff.2 (.inl (by decide))]

end Heap
end LatentExpr
