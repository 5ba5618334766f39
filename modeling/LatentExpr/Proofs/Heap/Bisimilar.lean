import LatentExpr.Proofs.Heap.Available
import LatentExpr.Value.Equality
import Mathlib.Data.List.Perm.Subperm

/-!
Bisimilarity of values. Two values are `Bisimilar` when some relation holds of them that relates values only
if they are `Alike`: the same from outside, with related values inside. That is an equivalence, and it holds
of values that are alike up to every depth.
-/
namespace LatentExpr

/-- Arrays and objects: the values that hold other values. -/
def Value.isContainer : Value → Bool
  | array _ | object _ => true
  | _ => false

/-! ### Fields with different keys -/

namespace Fields

/-- No key is there twice. -/
def Keyed (fields : Fields) : Prop := (fields.map Prod.fst).Nodup

variable {xs ys : Fields} {key : String}

theorem get?_eq_none_iff : xs.get? key = none ↔ key ∉ xs.map Prod.fst := by
  induction xs with
  | nil => simp [get?]
  | cons field rest ih =>
    by_cases h : field.1 = key
    · simp [get?_cons, h]
    · simp [get?_cons, h, ih, Ne.symm h]

theorem isSome_get?_iff : (xs.get? key).isSome = true ↔ key ∈ xs.map Prod.fst := by
  rw [Option.isSome_iff_ne_none, ne_eq, get?_eq_none_iff, not_not]

theorem Keyed.get?_eq_some_iff (hx : xs.Keyed) {v : Value} :
    xs.get? key = some v ↔ (key, v) ∈ xs := by
  induction xs with
  | nil => simp [get?]
  | cons field rest ih =>
    obtain ⟨hnew, hrest⟩ := List.nodup_cons.1 hx
    obtain ⟨other, old⟩ := field
    by_cases h : other = key
    · subst h
      have hnot : (other, v) ∉ rest := fun hmem => hnew (List.mem_map.2 ⟨_, hmem, rfl⟩)
      simp [get?_cons, hnot, eq_comm]
    · simp [get?_cons, h, Ne.symm h, ih hrest]

theorem Keyed.insert {v : Value} (hx : xs.Keyed) : (Fields.insert key v xs).Keyed := by
  rw [Keyed, keys_insert]
  split
  · exact hx
  · rename_i hnew
    exact List.nodup_append_comm.1 (List.nodup_cons.2 ⟨hnew, hx⟩)

theorem keyed_ofEntries (entries : List (String × Value)) : (ofEntries entries).Keyed :=
  List.foldlRecOn entries _ (motive := Keyed) List.nodup_nil fun _ hfields _ _ => hfields.insert

/-- Fields have the same keys if they are as many and each key of the one is a key of the other. -/
theorem Keyed.subset_of_length_eq (hx : xs.Keyed) (hlen : xs.length = ys.length)
    (hsub : xs.map Prod.fst ⊆ ys.map Prod.fst) : ys.map Prod.fst ⊆ xs.map Prod.fst :=
  ((List.subperm_of_subset hx hsub).perm_of_length_le (by simp [hlen])).symm.subset

/-- Comparing the values under the keys of one side is comparing the values under the keys of both. -/
theorem Keyed.forall_mem_iff (hx : xs.Keyed) (hy : ys.Keyed) (R : Value → Value → Prop) :
    (xs.length = ys.length ∧ ∀ f ∈ xs, ∃ y, ys.get? f.1 = some y ∧ R f.2 y) ↔
      (∀ key, (xs.get? key).isSome = (ys.get? key).isSome) ∧
        ∀ key x y, xs.get? key = some x → ys.get? key = some y → R x y := by
  constructor
  · rintro ⟨hlen, hall⟩
    refine ⟨fun key => ?_, fun key x y hgetx hgety => ?_⟩
    · have hsub : xs.map Prod.fst ⊆ ys.map Prod.fst := by
        intro key hkey
        obtain ⟨f, hf, rfl⟩ := List.mem_map.1 hkey
        obtain ⟨y, hget, -⟩ := hall f hf
        exact List.mem_map.2 ⟨_, hy.get?_eq_some_iff.1 hget, rfl⟩
      have hkeys : key ∈ xs.map Prod.fst ↔ key ∈ ys.map Prod.fst :=
        ⟨fun hkey => hsub hkey, fun hkey => hx.subset_of_length_eq hlen hsub hkey⟩
      rw [Bool.eq_iff_iff, isSome_get?_iff, isSome_get?_iff, hkeys]
    · obtain ⟨y', hgety', hxy⟩ := hall _ (hx.get?_eq_some_iff.1 hgetx)
      rw [hgety] at hgety'
      exact Option.some.inj hgety' ▸ hxy
  · rintro ⟨hkeys, hrel⟩
    refine ⟨?_, fun f hf => ?_⟩
    · have hperm := (List.perm_ext_iff_of_nodup hx hy).2 fun key => by
        rw [← isSome_get?_iff, ← isSome_get?_iff, hkeys]
      simpa using hperm.length_eq
    · have hgetx := hx.get?_eq_some_iff.2 hf
      obtain ⟨y, hgety⟩ := Option.isSome_iff_exists.1 ((hkeys f.1).symm.trans (by rw [hgetx]; rfl))
      exact ⟨y, hgety, hrel _ _ _ hgetx hgety⟩

end Fields

namespace Heap
variable {h : Heap} {R S : Value → Value → Prop} {a b c : Value}

/-- The objects of a heap have every key once. -/
def Keyed (h : Heap) : Prop := ∀ i, (h.fields i).Keyed

theorem keyed_of_objects (hobjects : ∀ fields ∈ h.objects, Fields.Keyed fields) : h.Keyed := by
  intro i
  unfold fields
  by_cases hi : i < h.objects.size
  · simpa [hi] using hobjects _ (Array.getElem_mem hi)
  · simp [hi, Fields.Keyed]

/-! ### Bisimilarity -/

/-- Two values look the same from outside, and what they hold is related. -/
inductive Alike (h : Heap) (R : Value → Value → Prop) : Value → Value → Prop where
  | same {v : Value} (hv : v.isContainer = false) : Alike h R v v
  | zeros {m n : Number} (hm : m.isZero = true) (hn : n.isZero = true) :
    Alike h R (.number m) (.number n)
  | array {i j : Nat} (hl : (h.elements i).size = (h.elements j).size)
    (he : ∀ (k : Nat) x y, (h.elements i)[k]? = some x → (h.elements j)[k]? = some y → R x y) :
    Alike h R (.array i) (.array j)
  | object {i j : Nat} (hk : ∀ key, ((h.fields i).get? key).isSome = ((h.fields j).get? key).isSome)
    (hf : ∀ key x y, (h.fields i).get? key = some x → (h.fields j).get? key = some y → R x y) :
    Alike h R (.object i) (.object j)

/-- The values are related by a relation that relates alike values only, and what they hold. -/
def Bisimilar (h : Heap) (a b : Value) : Prop :=
  ∃ R : Value → Value → Prop, (∀ x y, R x y → h.Alike R x y) ∧ R a b

theorem Alike.kind_eq (hab : h.Alike R a b) : a.kind = b.kind := by
  cases hab <;> rfl

theorem alike_array_iff {i j : Nat} : h.Alike R (.array i) (.array j) ↔
    (h.elements i).size = (h.elements j).size ∧
      ∀ (k : Nat) x y, (h.elements i)[k]? = some x → (h.elements j)[k]? = some y → R x y := by
  refine ⟨fun hab => ?_, fun ⟨hl, he⟩ => .array hl he⟩
  cases hab with
  | same => contradiction
  | array hl he => exact ⟨hl, he⟩

theorem alike_object_iff {i j : Nat} : h.Alike R (.object i) (.object j) ↔
    (∀ key, ((h.fields i).get? key).isSome = ((h.fields j).get? key).isSome) ∧
      ∀ key x y, (h.fields i).get? key = some x → (h.fields j).get? key = some y → R x y := by
  refine ⟨fun hab => ?_, fun ⟨hk, hf⟩ => .object hk hf⟩
  cases hab with
  | same => contradiction
  | object hk hf => exact ⟨hk, hf⟩

theorem Holds.isContainer {v : Value} (hv : h.Holds a v) : a.isContainer = true := by
  cases hv <;> rfl

theorem holds_of_getElem? {i k : Nat} {v : Value} (hv : (h.elements i)[k]? = some v) :
    h.Holds (.array i) v :=
  .element (Array.mem_of_getElem? hv)

theorem holds_of_get? {i : Nat} {key : String} {v : Value} (hv : (h.fields i).get? key = some v) :
    h.Holds (.object i) v := by
  obtain ⟨before, after, heq, -⟩ := List.lookup_eq_some_iff.1 hv
  exact .field (f := (key, v)) (by simp [heq])

theorem Alike.mono (hRS : ∀ x y, h.Holds a x → h.Holds b y → R x y → S x y) (hab : h.Alike R a b) :
    h.Alike S a b := by
  cases hab with
  | same hv => exact .same hv
  | zeros hm hn => exact .zeros hm hn
  | array hl he =>
    exact .array hl fun k x y hx hy =>
      hRS x y (holds_of_getElem? hx) (holds_of_getElem? hy) (he k x y hx hy)
  | object hk hf =>
    exact .object hk fun key x y hx hy =>
      hRS x y (holds_of_get? hx) (holds_of_get? hy) (hf key x y hx hy)

theorem Alike.refl (hR : ∀ x, R x x) (v : Value) : h.Alike R v v := by
  have hsame {o : Option Value} {x y : Value} (hx : o = some x) (hy : o = some y) : R x y :=
    Option.some.inj (hx.symm.trans hy) ▸ hR x
  cases v with
  | array i => exact .array rfl fun k x y hx hy => hsame hx hy
  | object i => exact .object (fun _ => rfl) fun key x y hx hy => hsame hx hy
  | _ => exact .same rfl

theorem Alike.symm (hab : h.Alike R a b) : h.Alike (fun x y => R y x) b a := by
  cases hab with
  | same hv => exact .same hv
  | zeros hm hn => exact .zeros hn hm
  | array hl he => exact .array hl.symm fun k x y hx hy => he k y x hy hx
  | object hk hf => exact .object (fun key => (hk key).symm) fun key x y hx hy => hf key y x hy hx

theorem Alike.trans (hab : h.Alike R a b) (hbc : h.Alike S b c) :
    h.Alike (fun x z => ∃ y, R x y ∧ S y z) a c := by
  cases hab with
  | same =>
    cases hbc with
    | same hv => exact .same hv
    | zeros hm hn => exact .zeros hm hn
    | array | object => contradiction
  | zeros hm hn =>
    cases hbc with
    | same => exact .zeros hm hn
    | zeros _ hn => exact .zeros hm hn
  | array hl he =>
    cases hbc with
    | same => contradiction
    | @array j l hl' he' =>
      refine .array (hl.trans hl') fun k x z hx hz => ?_
      obtain ⟨hk, -⟩ := Array.getElem?_eq_some_iff.1 hz
      have hy := Array.getElem?_eq_getElem (hl'.symm ▸ hk)
      exact ⟨_, he k x _ hx hy, he' k _ z hy hz⟩
  | object hk hf =>
    cases hbc with
    | same => contradiction
    | object hk' hf' =>
      refine .object (fun key => (hk key).trans (hk' key)) fun key x z hx hz => ?_
      obtain ⟨y, hy⟩ := Option.isSome_iff_exists.1 ((hk key).symm.trans (by rw [hx]; rfl))
      exact ⟨y, hf key x y hx hy, hf' key y z hy hz⟩

/-- Bisimilarity is an equivalence. -/
theorem bisimilar_equivalence (h : Heap) : Equivalence h.Bisimilar where
  refl _ := ⟨Eq, fun x _ hxy => hxy ▸ Alike.refl (fun _ => rfl) x, rfl⟩
  symm := fun ⟨R, hR, hab⟩ => ⟨fun x y => R y x, fun x y hxy => (hR y x hxy).symm, hab⟩
  trans := fun ⟨R, hR, hab⟩ ⟨S, hS, hbc⟩ =>
    ⟨fun x z => ∃ y, R x y ∧ S y z, fun _ _ ⟨y, hxy, hyz⟩ => (hR _ y hxy).trans (hS y _ hyz),
      _, hab, hbc⟩

/-- Bisimilarity is the largest relation of values that are alike in that what they hold is so related. -/
theorem bisimilar_iff : h.Bisimilar a b ↔ h.Alike h.Bisimilar a b := by
  constructor
  · rintro ⟨R, hR, hab⟩
    exact (hR a b hab).mono fun x y _ _ hxy => ⟨R, hR, hxy⟩
  · intro hab
    refine ⟨fun x y => h.Bisimilar x y ∨ h.Alike h.Bisimilar x y, ?_, .inr hab⟩
    rintro x y (⟨R, hR, hxy⟩ | hxy)
    · exact (hR x y hxy).mono fun _ _ _ _ hxy => .inl ⟨R, hR, hxy⟩
    · exact hxy.mono fun _ _ _ _ hxy => .inl hxy

/-! ### Alike up to a depth -/

/-- Two values cannot be told apart by looking less than `depth` containers deep. -/
def AlikeTo (h : Heap) : Nat → Value → Value → Prop
  | 0 => fun _ _ => True
  | depth + 1 => h.Alike (h.AlikeTo depth)

theorem AlikeTo.refl (h : Heap) (depth : Nat) (v : Value) : h.AlikeTo depth v v := by
  induction depth generalizing v with
  | zero => trivial
  | succ depth ih => exact Alike.refl ih v

theorem AlikeTo.pred {depth : Nat} (hab : h.AlikeTo (depth + 1) a b) : h.AlikeTo depth a b := by
  induction depth generalizing a b with
  | zero => trivial
  | succ depth ih => exact Alike.mono (fun _ _ _ _ hxy => ih hxy) hab

/-- Values that are alike up to every depth are bisimilar. -/
theorem bisimilar_of_alikeTo (hab : ∀ depth, h.AlikeTo depth a b) : h.Bisimilar a b := by
  refine ⟨fun x y => ∀ depth, h.AlikeTo depth x y, fun x y hxy => ?_, hab⟩
  have hdeeper (depth : Nat) : h.Alike (h.AlikeTo depth) x y := hxy (depth + 1)
  cases hxy 1 with
  | same hv => exact .same hv
  | zeros hm hn => exact .zeros hm hn
  | array hl _ =>
    exact .array hl fun k x y hx hy depth => (alike_array_iff.1 (hdeeper depth)).2 k x y hx hy
  | object hk _ =>
    exact .object hk fun key x y hx hy depth => (alike_object_iff.1 (hdeeper depth)).2 key x y hx hy

end Heap

end LatentExpr
