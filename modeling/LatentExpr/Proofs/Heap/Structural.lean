import LatentExpr.Proofs.Heap.Bisimilar
import Mathlib.Data.Finset.Prod
import Mathlib.Tactic.Ring

/-!
Structural equality decides bisimilarity. `compareContents` is structural equality without a bound on its
depth: the pairs that a comparison is inside of are different pairs of containers, of which there are finitely
many, so it ends, and `structuralEqual` gives it enough depth. That a pair counts as equal inside of itself
is sound: what tells two values apart lies less deep below a pair that comes later on the way to it, so the
way never comes to a pair twice. The proof says how deep two values are alike instead of following such ways
(`alikeTo_of_compareContents`).
-/
namespace LatentExpr

/-- Equal numbers are the same number or both zero. -/
theorem Number.equal_iff {m n : Number} : m.equal n = true ↔
    m.isNaN = false ∧ m = n ∨ m.isZero = true ∧ n.isZero = true := by
  cases m with
  | nan => simp [equal, compare?, isNaN, isZero]
  | signed p x =>
    cases n with
    | nan => simp [equal, compare?, isZero]
    | signed q y =>
      obtain ⟨x, hx⟩ := x
      obtain ⟨y, hy⟩ := y
      cases p <;> cases q <;>
        simp [equal, compare?, isNaN, isZero, orderKey, Magnitude.isZero] <;> omega

theorem Value.sameValueZero_iff {a b : Value} : a.sameValueZero b = true ↔
    a = b ∨ ∃ m n, a = .number m ∧ b = .number n ∧ m.isZero = true ∧ n.isZero = true := by
  unfold sameValueZero
  split
  · rename_i m n
    have hnan : m.isNaN = true ∧ n.isNaN = true ↔ m.isNaN = true ∧ m = n := by
      cases m <;> cases n <;> simp [Number.isNaN]
    simp only [Bool.or_eq_true, Bool.and_eq_true, Number.equal_iff, hnan]
    cases m.isNaN <;> simp [or_comm]
  · rename_i hnumbers
    rw [decide_eq_true_iff]
    exact ⟨.inl, fun hab => hab.resolve_right fun ⟨m, n, ha, hb, _⟩ => hnumbers m n ha hb⟩

/-! ### What is not on a track -/

section
variable {τ : Type} [DecidableEq τ] {things : Finset τ} {track : List τ} {x : τ}

/-- How many of finitely many things are not on a track. -/
def offTrack (things : Finset τ) (track : List τ) : Nat := (things \ track.toFinset).card

theorem offTrack_le (things : Finset τ) (track : List τ) : offTrack things track ≤ things.card :=
  Finset.card_le_card Finset.sdiff_subset

/-- Going on to something new leaves less. -/
theorem offTrack_cons_lt (hx : x ∈ things) (hnew : x ∉ track) :
    offTrack things (x :: track) < offTrack things track := by
  refine Finset.card_lt_card ((Finset.ssubset_iff_of_subset ?_).2 ⟨x, ?_, ?_⟩)
  · intro y
    simp +contextual
  · simp [hx, hnew]
  · simp

end

namespace Heap
variable {h : Heap} {track : List (Value × Value)} {a b : Value}

/-! ### Comparing without a bound -/

/-- The pairs of containers of one kind. -/
def pairs (h : Heap) : Finset (Value × Value) :=
  (Finset.range h.arrays.size ×ˢ Finset.range h.arrays.size).image
      (fun p => (Value.array p.1, Value.array p.2)) ∪
    (Finset.range h.objects.size ×ˢ Finset.range h.objects.size).image
      fun p => (Value.object p.1, Value.object p.2)

/-- How many pairs of containers a comparison is not inside of. -/
def unmet (h : Heap) (track : List (Value × Value)) : Nat := offTrack h.pairs track

theorem card_pairs_le (h : Heap) : h.pairs.card ≤ h.size * h.size := by
  have hcard : h.pairs.card ≤ h.arrays.size * h.arrays.size + h.objects.size * h.objects.size := by
    refine (Finset.card_union_le _ _).trans (Nat.add_le_add ?_ ?_) <;>
      exact Finset.card_image_le.trans (by simp)
  have hsize : h.size * h.size = h.arrays.size * h.arrays.size + h.objects.size * h.objects.size +
      2 * (h.arrays.size * h.objects.size) := by
    rw [Heap.size]
    ring
  omega

theorem unmet_le (h : Heap) (track : List (Value × Value)) : h.unmet track ≤ h.size * h.size :=
  (offTrack_le _ _).trans h.card_pairs_le

theorem lt_of_mem_elements {i : Nat} {v : Value} (hv : v ∈ h.elements i) : i < h.arrays.size := by
  by_contra hge
  simp [Heap.elements, hge] at hv

theorem lt_of_mem_fields {i : Nat} {f : String × Value} (hf : f ∈ h.fields i) :
    i < h.objects.size := by
  by_contra hge
  simp [Heap.fields, hge] at hf

/-- Two containers of one kind that both hold something are a pair. -/
theorem mem_pairs {x y : Value} (hkind : a.kind = b.kind) (hx : h.Holds a x) (hy : h.Holds b y) :
    (a, b) ∈ h.pairs := by
  cases hx with
  | element hx =>
    cases hy with
    | element hy => simp [pairs, lt_of_mem_elements hx, lt_of_mem_elements hy]
    | field => cases hkind
  | field hx =>
    cases hy with
    | element => cases hkind
    | field hy => simp [pairs, lt_of_mem_fields hx, lt_of_mem_fields hy]

/-- Going into a new pair leaves fewer pairs. -/
theorem unmet_cons_lt {x y : Value} (hnew : (a, b) ∉ track) (hkind : a.kind = b.kind)
    (hx : h.Holds a x) (hy : h.Holds b y) : h.unmet ((a, b) :: track) < h.unmet track :=
  offTrack_cons_lt (mem_pairs hkind hx hy) hnew

theorem holds_of_mem_zip {i j : Nat} {x y : Value}
    (hxy : (x, y) ∈ (h.elements i).toList.zip (h.elements j).toList) :
    h.Holds (.array i) x ∧ h.Holds (.array j) y :=
  ⟨.element (Array.mem_toList_iff.1 (List.of_mem_zip hxy).1),
    .element (Array.mem_toList_iff.1 (List.of_mem_zip hxy).2)⟩

/-- Structural equality of two values inside of the pairs of a track, however deep it goes. -/
def compareContents (h : Heap) (track : List (Value × Value)) (a b : Value) : Bool :=
  match a, b with
  | .array i, .array j =>
    if _hmet : i = j ∨ (.array i, .array j) ∈ track then true
    else
      let xs := (h.elements i).toList
      let ys := (h.elements j).toList
      xs.length == ys.length && (xs.zip ys).attach.all fun ⟨(x, y), _⟩ =>
        h.compareContents ((.array i, .array j) :: track) x y
  | .object i, .object j =>
    if _hmet : i = j ∨ (.object i, .object j) ∈ track then true
    else
      let xs := h.fields i
      let ys := h.fields j
      xs.length == ys.length && xs.attach.all fun ⟨(key, x), _⟩ =>
        match _hy : ys.get? key with
        | some y => h.compareContents ((.object i, .object j) :: track) x y
        | none => false
  | a, b => a.sameValueZero b
termination_by h.unmet track
decreasing_by
  · rename_i hxy
    obtain ⟨hx, hy⟩ := holds_of_mem_zip hxy
    exact unmet_cons_lt (fun hmem => _hmet (.inr hmem)) rfl hx hy
  · rename_i hx
    exact unmet_cons_lt (fun hmem => _hmet (.inr hmem)) rfl (.field hx) (holds_of_get? _hy)

/-- How a comparison of two containers goes, given whether their contents are equal. -/
theorem dite_or_eq {p q : Prop} [Decidable p] [Decidable q] {x y : Bool} (hxy : x = y) :
    (if _ : p ∨ q then true else x) = (decide p || decide q || y) := by
  by_cases hp : p <;> by_cases hq : q <;> simp [hp, hq, hxy]

theorem all_attach {α : Type} {l : List α} {f : { x // x ∈ l } → Bool} {g : α → Bool}
    (hfg : ∀ x hx, f ⟨x, hx⟩ = g x) : l.attach.all f = l.all g := by
  rw [List.all_subtype hfg, List.unattach_attach]

theorem all_congr_of_mem {α : Type} {l : List α} {f g : α → Bool} (hfg : ∀ x ∈ l, f x = g x) :
    l.all f = l.all g := by
  rw [Bool.eq_iff_iff, List.all_eq_true, List.all_eq_true]
  exact forall₂_congr fun x hx => by rw [hfg x hx]

theorem compareContents_array (h : Heap) (track : List (Value × Value)) (i j : Nat) :
    h.compareContents track (.array i) (.array j) =
      (decide (i = j) || track.contains (.array i, .array j) ||
        (h.elements i).toList.length == (h.elements j).toList.length &&
          ((h.elements i).toList.zip (h.elements j).toList).all fun (x, y) =>
            h.compareContents ((.array i, .array j) :: track) x y) := by
  rw [compareContents, List.contains_eq_mem]
  exact dite_or_eq (congrArg (and _) (all_attach fun _ _ => rfl))

theorem compareContents_object (h : Heap) (track : List (Value × Value)) (i j : Nat) :
    h.compareContents track (.object i) (.object j) =
      (decide (i = j) || track.contains (.object i, .object j) ||
        (h.fields i).length == (h.fields j).length && (h.fields i).all fun (key, x) =>
          match (h.fields j).get? key with
          | some y => h.compareContents ((.object i, .object j) :: track) x y
          | none => false) := by
  rw [compareContents, List.contains_eq_mem]
  refine dite_or_eq (congrArg (and _) (all_attach fun f _ => ?_))
  dsimp only
  split <;> rename_i hget <;> simp only [hget]

theorem compareContents_plain (harrays : ¬∃ i j, a = .array i ∧ b = .array j)
    (hobjects : ¬∃ i j, a = .object i ∧ b = .object j) :
    h.compareContents track a b = a.sameValueZero b := by
  rw [compareContents]
  · exact fun i j ha hb => harrays ⟨i, j, ha, hb⟩
  · exact fun i j ha hb => hobjects ⟨i, j, ha, hb⟩

/-- A comparison that has enough depth is the one without a bound. -/
theorem sameContents_eq_compareContents {fuel : Nat} (hfuel : h.unmet track < fuel) :
    h.sameContents fuel track a b = h.compareContents track a b := by
  induction fuel generalizing track a b with
  | zero => exact absurd hfuel (Nat.not_lt_zero _)
  | succ fuel ih =>
    unfold sameContents
    split
    · rename_i i j
      rw [compareContents_array]
      by_cases hmet : (decide (i = j) || track.contains (Value.array i, Value.array j)) = true
      · rw [if_pos hmet, hmet, Bool.true_or]
      · rw [if_neg hmet, Bool.eq_false_iff.2 hmet, Bool.false_or]
        have hnew : (Value.array i, Value.array j) ∉ track := fun hmem => hmet (by simp [hmem])
        refine congrArg (and _) (all_congr_of_mem fun (x, y) hxy => ih ?_)
        obtain ⟨hx, hy⟩ := holds_of_mem_zip hxy
        have := unmet_cons_lt hnew rfl hx hy
        omega
    · rename_i i j
      rw [compareContents_object]
      by_cases hmet : (decide (i = j) || track.contains (Value.object i, Value.object j)) = true
      · rw [if_pos hmet, hmet, Bool.true_or]
      · rw [if_neg hmet, Bool.eq_false_iff.2 hmet, Bool.false_or]
        have hnew : (Value.object i, Value.object j) ∉ track := fun hmem => hmet (by simp [hmem])
        refine congrArg (and _) (all_congr_of_mem fun (key, x) hx => ?_)
        dsimp only
        cases hy : (h.fields j).get? key with
        | none => rfl
        | some y =>
          refine ih ?_
          have := unmet_cons_lt hnew rfl (.field hx) (holds_of_get? hy)
          omega
    · rename_i harray hobject
      rw [compareContents_plain]
      · exact fun ⟨i, j, ha, hb⟩ => harray i j ha hb
      · exact fun ⟨i, j, ha, hb⟩ => hobject i j ha hb

/-! ### Structural equality and bisimilarity -/

/-- Two containers are the same or are being compared already. -/
def Met (track : List (Value × Value)) (a b : Value) : Prop :=
  a.isContainer = true ∧ a.kind = b.kind ∧ (a = b ∨ (a, b) ∈ track)

theorem met_array_iff {i j : Nat} :
    Met track (.array i) (.array j) ↔ i = j ∨ (.array i, .array j) ∈ track := by
  simp [Met, Value.isContainer, Value.kind]

theorem met_object_iff {i j : Nat} :
    Met track (.object i) (.object j) ↔ i = j ∨ (.object i, .object j) ∈ track := by
  simp [Met, Value.isContainer, Value.kind]

/-- Lists that are as long are compared along their zip. -/
theorem forall_mem_zip_iff {xs ys : List Value} {R : Value → Value → Prop} :
    (∀ p ∈ xs.zip ys, R p.1 p.2) ↔
      ∀ (k : Nat) x y, xs[k]? = some x → ys[k]? = some y → R x y := by
  constructor
  · intro hall k x y hx hy
    exact hall _ (List.mem_of_getElem? (List.getElem?_zip_eq_some.2 ⟨hx, hy⟩ : _ = some (x, y)))
  · intro hall p hp
    obtain ⟨k, hk⟩ := List.mem_iff_getElem?.1 hp
    exact hall k _ _ (List.getElem?_zip_eq_some.1 hk).1 (List.getElem?_zip_eq_some.1 hk).2

/-- Two values count as equal if they are containers that are met, or if they are alike and what they hold
counts as equal. -/
theorem compareContents_iff (hk : h.Keyed) : h.compareContents track a b = true ↔
    Met track a b ∨ h.Alike (fun x y => h.compareContents ((a, b) :: track) x y = true) a b := by
  by_cases harrays : ∃ i j, a = .array i ∧ b = .array j
  · obtain ⟨i, j, rfl, rfl⟩ := harrays
    rw [compareContents_array, alike_array_iff, met_array_iff, ← Array.length_toList,
      ← Array.length_toList]
    simp only [← Array.getElem?_toList, ← forall_mem_zip_iff]
    simp
  · by_cases hobjects : ∃ i j, a = .object i ∧ b = .object j
    · obtain ⟨i, j, rfl, rfl⟩ := hobjects
      have hfield (f : String × Value) : (match (h.fields j).get? f.1 with
            | some y => h.compareContents ((.object i, .object j) :: track) f.2 y
            | none => false) = true ↔ ∃ y, (h.fields j).get? f.1 = some y ∧
          h.compareContents ((.object i, .object j) :: track) f.2 y = true := by
        cases (h.fields j).get? f.1 <;> simp
      rw [compareContents_object, alike_object_iff, met_object_iff,
        ← (hk i).forall_mem_iff (hk j)]
      simp only [Bool.or_eq_true, Bool.and_eq_true, decide_eq_true_eq, List.contains_iff_mem,
        beq_iff_eq, List.all_eq_true, hfield]
    · rw [compareContents_plain harrays hobjects, Value.sameValueZero_iff]
      constructor
      · rintro (rfl | ⟨m, n, rfl, rfl, hm, hn⟩)
        · refine .inr (.same ?_)
          cases a <;> simp_all [Value.isContainer]
        · exact .inr (.zeros hm hn)
      · rintro (⟨hcontainer, hkind, -⟩ | halike)
        · cases a <;> cases b <;> simp_all [Value.isContainer, Value.kind]
        · cases halike with
          | same => exact .inl rfl
          | zeros hm hn => exact .inr ⟨_, _, rfl, rfl, hm, hn⟩
          | array => exact absurd ⟨_, _, rfl, rfl⟩ harrays
          | object => exact absurd ⟨_, _, rfl, rfl⟩ hobjects

/-- What counts as equal is alike up to every depth up to which the pairs on the track are. -/
theorem alikeTo_of_compareContents (hk : h.Keyed) {depth : Nat}
    (ht : ∀ p ∈ track, h.AlikeTo depth p.1 p.2) (hab : h.compareContents track a b = true) :
    h.AlikeTo depth a b := by
  induction depth generalizing track a b with
  | zero => trivial
  | succ depth ih =>
    have hpred : ∀ p ∈ track, h.AlikeTo depth p.1 p.2 := fun p hp => (ht p hp).pred
    rcases (compareContents_iff hk).1 hab with ⟨-, -, rfl | hmem⟩ | halike
    · exact .refl h _ a
    · exact ht _ hmem
    · refine Alike.mono (fun x y _ _ hxy => ih ?_ hxy) halike
      exact List.forall_mem_cons.2 ⟨ih hpred hab, hpred⟩

/-- Bisimilar values count as equal. -/
theorem compareContents_of_bisimilar (hk : h.Keyed) (hab : h.Bisimilar a b) :
    h.compareContents track a b = true := by
  obtain ⟨R, hR, hab⟩ := hab
  induction hn : h.unmet track using Nat.strong_induction_on generalizing track a b with
  | _ n ih =>
    subst hn
    rw [compareContents_iff hk]
    by_cases hmet : Met track a b
    · exact .inl hmet
    · have halike := hR a b hab
      refine .inr (Alike.mono (fun x y hx hy hxy => ih _ ?_ hxy rfl) halike)
      refine unmet_cons_lt (fun hmem => hmet ⟨hx.isContainer, halike.kind_eq, .inr hmem⟩) ?_ hx hy
      exact halike.kind_eq

/-- Structural equality ends, and it holds of two values exactly if they are bisimilar; so it is an
equivalence. -/
theorem structuralEqual_iff_bisimilar (hk : h.Keyed) :
    (∀ a b, h.structuralEqual a b = h.compareContents [] a b) ∧
      (∀ a b, h.structuralEqual a b = true ↔ h.Bisimilar a b) ∧
        Equivalence fun a b => h.structuralEqual a b = true := by
  have hends (a b : Value) : h.structuralEqual a b = h.compareContents [] a b :=
    sameContents_eq_compareContents (Nat.lt_add_right 1 (Nat.lt_succ_of_le (h.unmet_le [])))
  have hiff (a b : Value) : h.structuralEqual a b = true ↔ h.Bisimilar a b := by
    rw [hends]
    refine ⟨fun hab => bisimilar_of_alikeTo fun depth => ?_, compareContents_of_bisimilar hk⟩
    exact alikeTo_of_compareContents hk (by simp) hab
  refine ⟨hends, hiff, ?_⟩
  simp only [hiff]
  exact h.bisimilar_equivalence

/-- An array that holds itself, two arrays that hold each other, and two objects that hold themselves and
these arrays under the same keys. -/
def loops : Heap where
  arrays := #[#[.array 0], #[.array 2], #[.array 1]]
  objects := #[.ofEntries [("list", .array 0), ("self", .object 0)],
    .ofEntries [("self", .object 1), ("list", .array 1)]]

theorem structuralEqual_iff_bisimilar_loops :
    loops.Keyed ∧ loops.Bisimilar (.object 0) (.object 1) ∧ ¬loops.Bisimilar (.array 0) (.object 0) := by
  have hkeyed : loops.Keyed := keyed_of_objects (by simp [loops, Fields.keyed_ofEntries])
  obtain ⟨-, hiff, -⟩ := structuralEqual_iff_bisimilar hkeyed
  exact ⟨hkeyed, (hiff _ _).1 (by decide),
    fun hab => absurd ((hiff _ _).2 hab) (by decide)⟩

end Heap

end LatentExpr
