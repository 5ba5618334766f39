import LatentExpr.Proofs.Heap.Growth
import LatentExpr.Proofs.Heap.Untracked
import Mathlib.Data.List.Intervals

/-!
Arrays that share nothing. What an array holds can be written out as a tree, in which each array stands in a place of
its own (`Tree.Unfolds`), and `plant` puts a tree into a heap with a fresh array for each of its nodes. What is planted
is `Unshared`, holds what the tree says and nothing else, and has the same text as any array that unfolds to the tree,
however much that one shares (`text_of_unfolds`). So where no array can be reached from itself neither sharing nor the
track that tells it from a cycle is seen in a text (`untracked_of_acyclic`).
-/
namespace LatentExpr

def Value.array? : Value → Option Nat
  | array id => some id
  | _ => none

/-- What an array holds, written out. A value that is no array is a leaf. -/
inductive Tree where
  | leaf (v : Value) (hv : v.array? = none)
  | array (elements : List Tree)

namespace Tree

mutual

/-- The text of a tree among others. -/
def part : Tree → String
  | leaf v _ => v.partText fun _ => ""
  | array elements => ",".intercalate (parts elements)

def parts : List Tree → List String
  | [] => []
  | t :: rest => t.part :: parts rest

end

mutual

/-- A tree put into a heap: every node is a fresh array, made when its elements are there. -/
def plant : Tree → Heap → Value × Heap
  | leaf v _, h => (v, h)
  | array elements, h =>
    let (values, after) := plantAll elements h
    after.newArray values.toArray

def plantAll : List Tree → Heap → List Value × Heap
  | [], h => ([], h)
  | t :: rest, h =>
    let (value, after) := t.plant h
    let (values, after) := plantAll rest after
    (value :: values, after)

end

/-! ### Unfolding -/

variable {h : Heap}

mutual

/-- A value of a heap is written out in a tree. -/
def Unfolds (h : Heap) : Tree → Value → Prop
  | leaf u _, v => v = u
  | array elements, v => ∃ id, v = .array id ∧ UnfoldAll h elements (h.elements id).toList

def UnfoldAll (h : Heap) : List Tree → List Value → Prop
  | [], vs => vs = []
  | t :: rest, vs => ∃ v others, vs = v :: others ∧ t.Unfolds h v ∧ UnfoldAll h rest others

end

theorem unfolds_array_iff {t : Tree} {id : Nat} :
    t.Unfolds h (.array id) ↔ ∃ elements, t = array elements ∧ UnfoldAll h elements (h.elements id).toList := by
  constructor
  · intro hid
    cases t with
    | leaf u hu =>
      have heq : .array id = u := hid
      rw [← heq] at hu
      cases hu
    | array elements =>
      obtain ⟨_, ⟨⟩, hall⟩ := hid
      exact ⟨elements, rfl, hall⟩
  · rintro ⟨elements, rfl, hall⟩
    exact ⟨id, rfl, hall⟩

theorem part_of_unfolds_leaf {t : Tree} {v : Value} (hv : v.array? = none) (htv : t.Unfolds h v)
    (ofArray : Nat → String) : t.part = v.partText ofArray := by
  cases t with
  | leaf u hu =>
    have heq : v = u := htv
    subst heq
    exact Value.partText_congr fun inner hinner => absurd hv (hinner ▸ nofun)
  | array elements =>
    obtain ⟨id, rfl, -⟩ := htv
    cases hv

mutual

/-- What unfolds holds nothing that can be reached from itself. -/
theorem acc_of_unfolds (t : Tree) {id : Nat} (hid : t.Unfolds h (.array id)) :
    Acc (fun j i => h.HoldsArray i j) id := by
  obtain ⟨elements, rfl, hall⟩ := unfolds_array_iff.1 hid
  exact ⟨_, fun inner hinner => acc_of_unfoldAll elements hall (Array.mem_toList_iff.2 hinner)⟩

theorem acc_of_unfoldAll (elements : List Tree) {vs : List Value} (hall : UnfoldAll h elements vs) {id : Nat}
    (hid : .array id ∈ vs) : Acc (fun j i => h.HoldsArray i j) id := by
  cases elements with
  | nil =>
    obtain rfl : vs = [] := hall
    cases hid
  | cons t rest =>
    obtain ⟨v, others, rfl, ht, hrest⟩ := hall
    rcases List.mem_cons.1 hid with rfl | hid
    · exact acc_of_unfolds t ht
    · exact acc_of_unfoldAll rest hrest hid

end

theorem parts_eq {elements : List Tree} {vs : List Value} {text : Value → String} (hall : UnfoldAll h elements vs)
    (htext : ∀ (t : Tree), ∀ v ∈ vs, t.Unfolds h v → t.part = text v) : parts elements = vs.map text := by
  induction elements generalizing vs with
  | nil =>
    obtain rfl : vs = [] := hall
    rfl
  | cons t rest ih =>
    obtain ⟨v, others, rfl, ht, hrest⟩ := hall
    have hparts := ih hrest fun t v hv => htext t v (List.mem_cons_of_mem _ hv)
    rw [parts, htext t v List.mem_cons_self ht, hparts, List.map_cons]

theorem exists_unfoldAll {vs : List Value} (hvs : ∀ v ∈ vs, ∃ t : Tree, t.Unfolds h v) :
    ∃ elements, UnfoldAll h elements vs := by
  induction vs with
  | nil => exact ⟨[], rfl⟩
  | cons v others ih =>
    obtain ⟨⟨t, ht⟩, hothers⟩ := List.forall_mem_cons.1 hvs
    obtain ⟨rest, hrest⟩ := ih hothers
    exact ⟨t :: rest, v, others, rfl, ht, hrest⟩

end Tree

namespace Heap
variable {h : Heap}

theorem exists_unfolds_of_acyclic {track : List Nat} {id : Nat} (hid : Acyclic h.HoldsArray id)
    (ht : Behind h.HoldsArray track id) : ∃ t : Tree, t.Unfolds h (.array id) := by
  induction track, id using h.walk_induction with
  | step track id ih =>
    have helement : ∀ v ∈ (h.elements id).toList, ∃ t : Tree, t.Unfolds h v := by
      intro v hv
      cases v with
      | array inner =>
        have hinner : h.HoldsArray id inner := Array.mem_toList_iff.1 hv
        exact ih inner ht.notMem hinner (hid.next hinner) (ht.next hid hinner)
      | _ => exact ⟨.leaf _ rfl, rfl⟩
    obtain ⟨elements, helements⟩ := Tree.exists_unfoldAll helement
    exact ⟨.array elements, id, rfl, helements⟩

theorem part_of_unfolds {track : List Nat} {id : Nat} {t : Tree} (hid : t.Unfolds h (.array id))
    (ht : Behind h.HoldsArray track id) : t.part = h.textInside track id := by
  have hacyclic := acyclic_of_acc (t.acc_of_unfolds hid)
  induction track, id using h.walk_induction generalizing t with
  | step track id ih =>
    obtain ⟨elements, rfl, hall⟩ := Tree.unfolds_array_iff.1 hid
    rw [Tree.part, textInside_of_notMem ht.notMem]
    refine congrArg _ (Tree.parts_eq hall fun t v hv htv => ?_)
    cases v with
    | array inner =>
      have hinner : h.HoldsArray id inner := Array.mem_toList_iff.1 hv
      exact ih inner ht.notMem hinner htv (ht.next hacyclic hinner) (hacyclic.next hinner)
    | _ => exact Tree.part_of_unfolds_leaf rfl htv _

/-- The text of an array is the text of the tree that it unfolds to. -/
theorem text_of_unfolds {id : Nat} {t : Tree} (hid : t.Unfolds h (.array id)) : h.text (.array id) = t.part := by
  rw [text_array, part_of_unfolds hid .nil]

/-! ### What is planted unfolds to its tree -/

/-- Two heaps have the same elements in the arrays from `low` on and below `high`. -/
def AgreeOn (low high : Nat) (h h' : Heap) : Prop := ∀ i, low ≤ i → i < high → h'.elements i = h.elements i

theorem AgreeOn.mono {low high low' high' : Nat} {h h' : Heap} (hagree : AgreeOn low high h h') (hlow : low ≤ low')
    (hhigh : high' ≤ high) : AgreeOn low' high' h h' :=
  fun i hi hi' => hagree i (hlow.trans hi) (hi'.trans_le hhigh)

/-- Heaps that agree with a later heap agree with an earlier one on what was there. -/
theorem AgreeOn.of_grows {low : Nat} {h h' h'' : Heap} (hagree : AgreeOn low h'.arrays.size h' h'')
    (hgrows : h.Grows h') : AgreeOn low h.arrays.size h h'' :=
  fun i hi hi' => (hagree i hi (hi'.trans_le hgrows.arrays_le)).trans (hgrows.elements hi')

mutual

theorem grows_plant (t : Tree) (h : Heap) : h.Grows (t.plant h).2 := by
  cases t with
  | leaf v hv => exact .refl h
  | array elements => exact (grows_plantAll elements h).trans (grows_newArray _ _)

theorem grows_plantAll (elements : List Tree) (h : Heap) : h.Grows (Tree.plantAll elements h).2 := by
  cases elements with
  | nil => exact .refl h
  | cons t rest => exact (grows_plant t h).trans (grows_plantAll rest _)

end

mutual

theorem unfolds_plant (t : Tree) (h h' : Heap)
    (hagree : AgreeOn h.arrays.size (t.plant h).2.arrays.size (t.plant h).2 h') : t.Unfolds h' (t.plant h).1 := by
  cases t with
  | leaf v hv => exact rfl
  | array elements =>
    have hgrows := grows_plantAll elements h
    have hself : h'.elements (Tree.plantAll elements h).2.arrays.size = (Tree.plantAll elements h).1.toArray := by
      rw [hagree _ hgrows.arrays_le (by simp [Tree.plant, newArray])]
      exact (elements_newArray _ _ _).trans (if_pos rfl)
    refine ⟨_, rfl, ?_⟩
    rw [hself, List.toList_toArray]
    exact unfoldAll_plantAll elements h h' (hagree.of_grows (grows_newArray _ _))

theorem unfoldAll_plantAll (elements : List Tree) (h h' : Heap)
    (hagree : AgreeOn h.arrays.size (Tree.plantAll elements h).2.arrays.size (Tree.plantAll elements h).2 h') :
    Tree.UnfoldAll h' elements (Tree.plantAll elements h).1 := by
  cases elements with
  | nil => exact rfl
  | cons t rest =>
    have hgrows := grows_plant t h
    exact ⟨_, _, rfl, unfolds_plant t h h' (hagree.of_grows (grows_plantAll rest _)),
      unfoldAll_plantAll rest (t.plant h).2 h' (hagree.mono hgrows.arrays_le le_rfl)⟩

end

/-! ### What is planted shares nothing -/

/-- The arrays among some values. -/
def arraysAmong (vs : List Value) : List Nat := vs.filterMap Value.array?

theorem mem_arraysAmong {vs : List Value} {a : Nat} : a ∈ arraysAmong vs ↔ .array a ∈ vs := by
  rw [arraysAmong, List.mem_filterMap]
  constructor
  · rintro ⟨v, hv, ha⟩
    cases v with
    | array id => exact Option.some.inj ha ▸ hv
    | _ => cases ha
  · exact fun ha => ⟨_, ha, rfl⟩

/-- The arrays that the arrays from `low` on and below `high` hold, as often as they do. -/
def heldWithin (h : Heap) (low high : Nat) : List Nat :=
  (List.Ico low high).flatMap fun i => arraysAmong (h.elements i).toList

/-- What can be reached from an array is in one place: the array itself is held by nothing that can be reached from it,
no array holds another one twice, and no two hold the same one. -/
structure Unshared (h : Heap) (root : Nat) : Prop where
  unheld : ∀ i, Relation.ReflTransGen h.HoldsArray root i → ¬ h.HoldsArray i root
  elements : ∀ i, Relation.ReflTransGen h.HoldsArray root i → (arraysAmong (h.elements i).toList).Nodup
  holder : ∀ i j a, Relation.ReflTransGen h.HoldsArray root i → Relation.ReflTransGen h.HoldsArray root j →
    h.HoldsArray i a → h.HoldsArray j a → i = j

/-- Every array between two heaps is in one place: among some values, or among the elements of one array between
them. -/
def Placed (h h' : Heap) (vs : List Value) : Prop :=
  (arraysAmong vs ++ h'.heldWithin h.arrays.size h'.arrays.size).Perm (List.Ico h.arrays.size h'.arrays.size)

theorem heldWithin_append {low mid high : Nat} (hlow : low ≤ mid) (hhigh : mid ≤ high) :
    h.heldWithin low high = h.heldWithin low mid ++ h.heldWithin mid high := by
  rw [heldWithin, ← List.Ico.append_consecutive hlow hhigh, List.flatMap_append]
  rfl

theorem heldWithin_congr {low high : Nat} {h h' : Heap} (hagree : AgreeOn low high h h') :
    h'.heldWithin low high = h.heldWithin low high := by
  refine List.flatMap_congr fun i hi => ?_
  obtain ⟨hlow, hhigh⟩ := List.Ico.mem.1 hi
  rw [hagree i hlow hhigh]

theorem agreeOn_of_grows {low : Nat} {h h' : Heap} (hgrows : h.Grows h') : AgreeOn low h.arrays.size h h' :=
  fun _ _ hi => hgrows.elements hi

theorem Placed.newArray {vs : List Value} {h h' : Heap} (hgrows : h.Grows h') (hs : Placed h h' vs) :
    Placed h (h'.newArray vs.toArray).2 [(h'.newArray vs.toArray).1] := by
  have hsize : (h'.newArray vs.toArray).2.arrays.size = h'.arrays.size + 1 := Array.size_push _
  have hlast : (h'.newArray vs.toArray).2.heldWithin h'.arrays.size (h'.arrays.size + 1) = arraysAmong vs := by
    rw [heldWithin, List.Ico.succ_singleton, List.flatMap_singleton, elements_newArray, if_pos rfl]
  rw [Placed, hsize, heldWithin_append hgrows.arrays_le (Nat.le_succ _), hlast,
    heldWithin_congr (agreeOn_of_grows (grows_newArray h' vs.toArray)), List.Ico.succ_top hgrows.arrays_le]
  refine List.perm_append_comm.trans (List.Perm.append_right _ ?_)
  exact List.perm_append_comm.trans hs

theorem Placed.cons {v : Value} {vs : List Value} {h h' h'' : Heap} (hgrows : h.Grows h') (hgrows' : h'.Grows h'')
    (hv : Placed h h' [v]) (hs : Placed h' h'' vs) : Placed h h'' (v :: vs) := by
  rw [Placed, heldWithin_append hgrows.arrays_le hgrows'.arrays_le, heldWithin_congr (agreeOn_of_grows hgrows'),
    ← List.Ico.append_consecutive hgrows.arrays_le hgrows'.arrays_le]
  have hsplit : arraysAmong (v :: vs) = arraysAmong [v] ++ arraysAmong vs := by
    rw [← List.singleton_append, arraysAmong, List.filterMap_append]
    rfl
  rw [hsplit]
  refine List.Perm.trans ?_ (List.Perm.append hv hs)
  rw [List.append_assoc, List.append_assoc]
  refine List.Perm.append_left _ ?_
  rw [← List.append_assoc, ← List.append_assoc]
  exact List.Perm.append_right _ List.perm_append_comm

mutual

theorem placed_plant (t : Tree) (h : Heap) : Placed h (t.plant h).2 [(t.plant h).1] := by
  cases t with
  | leaf v hv => simp [Placed, Tree.plant, arraysAmong, heldWithin, hv]
  | array elements => exact (placed_plantAll elements h).newArray (grows_plantAll elements h)

theorem placed_plantAll (elements : List Tree) (h : Heap) :
    Placed h (Tree.plantAll elements h).2 (Tree.plantAll elements h).1 := by
  cases elements with
  | nil => simp [Placed, Tree.plantAll, arraysAmong, heldWithin]
  | cons t rest =>
    exact (placed_plant t h).cons (grows_plant t h) (grows_plantAll rest _) (placed_plantAll rest _)

end

theorem Placed.unshared {root : Nat} {h h' : Heap} (hp : Placed h h' [.array root]) : h'.Unshared root := by
  have hnodup := hp.nodup_iff.2 (List.Ico.nodup _ _)
  have hroot : root ∈ List.Ico h.arrays.size h'.arrays.size := hp.subset (List.mem_append_left _ List.mem_cons_self)
  have hheld {i a : Nat} (hi : i ∈ List.Ico h.arrays.size h'.arrays.size) (ha : h'.HoldsArray i a) :
      a ∈ h'.heldWithin h.arrays.size h'.arrays.size :=
    List.mem_flatMap.2 ⟨i, hi, mem_arraysAmong.2 (Array.mem_toList_iff.2 ha)⟩
  have hreach {i : Nat} (hi : Relation.ReflTransGen h'.HoldsArray root i) :
      i ∈ List.Ico h.arrays.size h'.arrays.size := by
    induction hi with
    | refl => exact hroot
    | tail _ ha ih => exact hp.subset (List.mem_append_right _ (hheld ih ha))
  obtain ⟨hnew, hplaces⟩ := List.nodup_cons.1 hnodup
  obtain ⟨heach, hapart⟩ := List.nodup_flatMap.1 hplaces
  refine ⟨fun i hi hself => hnew (hheld (hreach hi) hself), fun i hi => heach i (hreach hi), ?_⟩
  intro i j a hi hj hia hja
  by_contra hne
  have hsymm : Std.Symm (Function.onFun List.Disjoint fun i => arraysAmong (h'.elements i).toList) :=
    ⟨fun _ _ hdisjoint => List.Disjoint.symm hdisjoint⟩
  have hdisjoint := hapart.forall (hreach hi) (hreach hj) hne
  exact hdisjoint (mem_arraysAmong.2 (Array.mem_toList_iff.2 hia)) (mem_arraysAmong.2 (Array.mem_toList_iff.2 hja))

/-! ### Texts and structures without cycles -/

/-- From an array through which no array can be reached from itself, the elements joined without a track are its text,
and so is the text of the tree that it unfolds to when that is planted, where nothing is shared. A value from which no
container can be reached from itself is shown as it is without a track, and `[Circular]` is not among what is written. A
depth beyond the number of arrays, or of containers, is enough without a track. -/
theorem untracked_of_acyclic (h : Heap) :
    (∀ id, Acyclic h.HoldsArray id →
      (∀ depth > h.arrays.size, h.plainText? depth id = some (h.text (.array id))) ∧
        ∃ (tree : Tree) (root : Nat) (after : Heap), tree.Unfolds h (.array id) ∧ tree.plant h = (.array root, after) ∧
          after.Unshared root ∧ tree.Unfolds after (.array root) ∧ after.text (.array root) = h.text (.array id)) ∧
    ∀ v, Acyclic h.Holds v →
      (∀ depth > h.size, h.plainStructure? depth v = some (h.debugText v)) ∧
        String.join (h.piecesInside [] v) = h.debugText v ∧ "[Circular]" ∉ h.piecesInside [] v := by
  constructor
  · intro id hid
    refine ⟨fun depth hdepth => ?_, ?_⟩
    · rw [text_array]
      refine plainText?_of_acyclic (((offTrack_le _ _).trans ?_).trans_lt hdepth) hid .nil
      rw [arrayIds, Finset.card_range]
    · obtain ⟨tree, htree⟩ := exists_unfolds_of_acyclic hid .nil
      obtain ⟨elements, rfl, -⟩ := Tree.unfolds_array_iff.1 htree
      have hagain := unfolds_plant (.array elements) h _ fun _ _ _ => rfl
      refine ⟨_, _, _, htree, rfl, (placed_plant (.array elements) h).unshared, hagain, ?_⟩
      exact (text_of_unfolds hagain).trans (text_of_unfolds htree).symm
  · intro v hv
    have hcard := (offTrack_le h.containers []).trans h.card_containers_le
    have hjoin : String.join (h.piecesInside [] v) = h.debugText v := join_piecesInside (by omega)
    refine ⟨fun depth hdepth => ?_, hjoin, circular_notMem_piecesInside hv .nil⟩
    have hfuel := hcard.trans_lt hdepth
    rw [plainStructure?_of_acyclic hfuel hv .nil, ← join_piecesInside hfuel, hjoin]

/-- An array that is held twice by one that is held twice, and an object with that one under two keys. -/
def sharing : Heap where
  arrays := #[#[.bool true, .null], #[.array 0, .array 0], #[.array 1, .array 1, .string "end"]]
  objects := #[.ofEntries [("first", .array 2), ("again", .array 2)]]

/-- Where a container stands among those of `sharing`, each before those that hold it. -/
def sharingRank : Value → Nat
  | .array id => id + 1
  | .object _ => 4
  | _ => 0

theorem sharingRank_lt (v u : Value) (hvu : sharing.Holds v u) : sharingRank u < sharingRank v := by
  cases hvu with
  | @element id v hv =>
    have hid : id < 3 := lt_of_mem_elements hv
    interval_cases id <;> simp [sharing, elements] at hv <;> rcases hv with rfl | rfl <;> decide
  | @field id f hf =>
    cases id with
    | zero =>
      simp [sharing, fields, Fields.ofEntries, Fields.insert] at hf
      rcases hf with rfl | rfl <;> decide
    | succ id => simp [sharing, fields] at hf

/-- Shared arrays are written in full wherever they are met. -/
theorem untracked_of_acyclic_sharing :
    sharing.plainText? 4 2 = some "true,,true,,true,,true,,end" ∧
      (∃ (after : Heap) (root : Nat), after.Unshared root ∧ after.text (.array root) = "true,,true,,true,,true,,end") ∧
        sharing.plainStructure? 5 (.object 0) = some (sharing.debugText (.object 0)) := by
  obtain ⟨htexts, hshown⟩ := untracked_of_acyclic sharing
  have htext : sharing.text (.array 2) = "true,,true,,true,,true,,end" := by decide
  obtain ⟨hplain, _, root, after, -, -, hunshared, -, hsame⟩ := htexts 2 (acyclic_of_lt id fun i j hij =>
    Nat.lt_of_succ_lt_succ (sharingRank_lt (.array i) (.array j) (.element hij)))
  exact ⟨(hplain 4 (by decide)).trans (congrArg some htext), ⟨after, root, hunshared, hsame.trans htext⟩,
    (hshown (.object 0) (acyclic_of_lt sharingRank sharingRank_lt)).1 5 (by decide)⟩

end Heap

end LatentExpr
