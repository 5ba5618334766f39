/-!
A trie whose labels are byte strings, as the states of a matcher form it. `Has` is what it holds: keys and
the index accepted at the end of each. Siblings differ in their first byte, so the first byte of a key tells
which of them it is under.
-/
namespace LatentExpr

/-- The edges that leave one state, first sibling first. An edge leads to a state that accepts an index or
not and has edges of its own `below`. -/
inductive Edges where
  | leaf
  | edge (label : List UInt8) (accept : Option Nat) (below next : Edges)

namespace Edges

/-- The number of edges, which is the number of states that edges lead to. -/
def size : Edges → Nat
  | leaf => 0
  | edge _ _ below next => 1 + below.size + next.size

/-- The trie accepts an index at the end of a key. -/
inductive Has : Edges → List UInt8 → Nat → Prop where
  | at_label {label : List UInt8} {index : Nat} {below next : Edges} :
    Has (edge label (some index) below next) label index
  | under {label key : List UInt8} {accept : Option Nat} {index : Nat} {below next : Edges}
    (h : Has below key index) : Has (edge label accept below next) (label ++ key) index
  | beside {label key : List UInt8} {accept : Option Nat} {index : Nat} {below next : Edges}
    (h : Has next key index) : Has (edge label accept below next) key index

theorem has_edge_iff {label key : List UInt8} {accept : Option Nat} {index : Nat} {below next : Edges} :
    (edge label accept below next).Has key index ↔
      (key = label ∧ accept = some index) ∨ (∃ rest, key = label ++ rest ∧ below.Has rest index) ∨
        next.Has key index := by
  constructor
  · intro h
    cases h with
    | at_label => exact .inl ⟨rfl, rfl⟩
    | under h => exact .inr (.inl ⟨_, rfl, h⟩)
    | beside h => exact .inr (.inr h)
  · rintro (⟨rfl, rfl⟩ | ⟨rest, rfl, h⟩ | h)
    · exact .at_label
    · exact .under h
    · exact .beside h

theorem not_has_leaf {key : List UInt8} {index : Nat} : ¬ leaf.Has key index := nofun

/-- An edge that is split in two holds what it held. -/
theorem has_split_iff {shared restLabel key : List UInt8} {accept : Option Nat} {below next : Edges} {index : Nat} :
    (edge shared none (edge restLabel accept below leaf) next).Has key index ↔
      (edge (shared ++ restLabel) accept below next).Has key index := by
  simp only [has_edge_iff, not_has_leaf, or_false, reduceCtorEq, and_false, false_or]
  constructor
  · rintro (⟨_, rfl, ⟨rfl, hs⟩ | ⟨rest, rfl, h⟩⟩ | h)
    · exact .inl ⟨rfl, hs⟩
    · exact .inr (.inl ⟨rest, (List.append_assoc ..).symm, h⟩)
    · exact .inr (.inr h)
  · rintro (⟨rfl, hs⟩ | ⟨rest, rfl, h⟩ | h)
    · exact .inl ⟨restLabel, rfl, .inl ⟨rfl, hs⟩⟩
    · exact .inl ⟨restLabel ++ rest, List.append_assoc .., .inr ⟨rest, rfl, h⟩⟩
    · exact .inr h

/-! ### Siblings in order -/

/-- Siblings in ascending order of their first bytes, which are above `floor` if there is one. -/
def Sorted : Option UInt8 → Edges → Prop
  | _, leaf => True
  | floor, edge label _ below next =>
    ∃ first more, label = first :: more ∧ (∀ b ∈ floor, b < first) ∧ below.Sorted none ∧
      next.Sorted (some first)

/-- The keys of a sorted trie start above its floor. -/
theorem Sorted.first_lt {b : UInt8} {edges : Edges} (h : edges.Sorted (some b)) {key : List UInt8}
    {index : Nat} (hk : edges.Has key index) : ∃ first more, key = first :: more ∧ b < first := by
  induction edges generalizing b key with
  | leaf => cases hk
  | edge label accept below next _ ihn =>
    obtain ⟨first, more, rfl, hfloor, hbelow, hnext⟩ := h
    have hlt := hfloor b rfl
    cases hk with
    | at_label => exact ⟨first, more, rfl, hlt⟩
    | @under _ key => exact ⟨first, more ++ key, rfl, hlt⟩
    | beside hk =>
      obtain ⟨first', more', rfl, hlt'⟩ := ihn hnext hk
      exact ⟨first', more', rfl, UInt8.lt_trans hlt hlt'⟩

/-- The keys that start with the first byte of a label are the label and those under it. -/
theorem Sorted.has_first_iff {floor : Option UInt8} {first : UInt8} {more key : List UInt8}
    {accept : Option Nat} {below next : Edges} {index : Nat}
    (h : (edge (first :: more) accept below next).Sorted floor) :
    (edge (first :: more) accept below next).Has (first :: key) index ↔
      (key = more ∧ accept = some index) ∨ ∃ rest, key = more ++ rest ∧ below.Has rest index := by
  obtain ⟨_, _, heq, -, -, hnext⟩ := h
  obtain ⟨rfl, rfl⟩ := List.cons.inj heq
  have hbeside : ¬ next.Has (first :: key) index := by
    intro hk
    obtain ⟨first', more', heq, hlt⟩ := hnext.first_lt hk
    obtain ⟨rfl, -⟩ := List.cons.inj heq
    exact UInt8.lt_irrefl _ hlt
  simp only [has_edge_iff, List.cons.injEq, true_and, List.cons_append, hbeside, or_false]

/-- The keys that start with another byte are those beside the edge. -/
theorem has_beside_iff {first b : UInt8} {more key : List UInt8} {accept : Option Nat}
    {below next : Edges} {index : Nat} (hne : b ≠ first) :
    (edge (first :: more) accept below next).Has (b :: key) index ↔ next.Has (b :: key) index := by
  simp [has_edge_iff, hne]

/-- A sorted trie holds no empty key. -/
theorem Sorted.ne_nil_of_has {floor : Option UInt8} {edges : Edges} (h : edges.Sorted floor)
    {key : List UInt8} {index : Nat} (hk : edges.Has key index) : key ≠ [] := by
  cases edges with
  | leaf => exact absurd hk not_has_leaf
  | edge label accept below next =>
    obtain ⟨first, more, rfl, -, -, hnext⟩ := h
    rcases has_edge_iff.1 hk with ⟨rfl, -⟩ | ⟨rest, rfl, -⟩ | hk
    · nofun
    · nofun
    · obtain ⟨first', more', rfl, -⟩ := hnext.first_lt hk
      nofun

/-! ### Insertion -/

/-- One more key was put into a trie: the trie holds that key with its index, and what it held before,
except that the key may have had another index. -/
structure Inserted (key : List UInt8) (index : Nat) (old new : Edges) : Prop where
  has : new.Has key index
  of_has : ∀ k i, new.Has k i → (k = key ∧ i = index) ∨ old.Has k i
  keeps : ∀ k i, old.Has k i → k ≠ key → new.Has k i

namespace Inserted

variable {key label : List UInt8} {index : Nat} {accept : Option Nat}
  {below below' next next' old old' new : Edges}

theorem congr (h : Inserted key index old new) (heq : ∀ {k i}, old.Has k i ↔ old'.Has k i) :
    Inserted key index old' new where
  has := h.has
  of_has k i hk := (h.of_has k i hk).imp_right heq.1
  keeps k i hk := h.keeps k i (heq.2 hk)

/-- An edge of its own. -/
theorem before : Inserted key index next (edge key (some index) leaf next) where
  has := .at_label
  of_has k i hk := by
    rcases has_edge_iff.1 hk with ⟨rfl, hi⟩ | ⟨rest, rfl, hrest⟩ | hk
    · exact .inl ⟨rfl, (Option.some.inj hi).symm⟩
    · exact absurd hrest not_has_leaf
    · exact .inr hk
  keeps _ _ hk _ := .beside hk

/-- The key is the label of an edge. -/
theorem at_label :
    Inserted label index (edge label accept below next) (edge label (some index) below next) where
  has := .at_label
  of_has k i hk := by
    rcases has_edge_iff.1 hk with ⟨rfl, hi⟩ | ⟨rest, rfl, hrest⟩ | hk
    · exact .inl ⟨rfl, (Option.some.inj hi).symm⟩
    · exact .inr (.under hrest)
    · exact .inr (.beside hk)
  keeps k i hk hne := by
    rcases has_edge_iff.1 hk with ⟨rfl, -⟩ | ⟨rest, rfl, hrest⟩ | hk
    · exact absurd rfl hne
    · exact .under hrest
    · exact .beside hk

theorem beside (h : Inserted key index next next') :
    Inserted key index (edge label accept below next) (edge label accept below next') where
  has := .beside h.has
  of_has k i hk := by
    rcases has_edge_iff.1 hk with ⟨rfl, rfl⟩ | ⟨rest, rfl, hrest⟩ | hk
    · exact .inr .at_label
    · exact .inr (.under hrest)
    · exact (h.of_has k i hk).imp_right .beside
  keeps k i hk hne := by
    rcases has_edge_iff.1 hk with ⟨rfl, rfl⟩ | ⟨rest, rfl, hrest⟩ | hk
    · exact .at_label
    · exact .under hrest
    · exact .beside (h.keeps k i hk hne)

theorem under (h : Inserted key index below below') :
    Inserted (label ++ key) index (edge label accept below next) (edge label accept below' next) where
  has := .under h.has
  of_has k i hk := by
    rcases has_edge_iff.1 hk with ⟨rfl, rfl⟩ | ⟨rest, rfl, hrest⟩ | hk
    · exact .inr .at_label
    · exact (h.of_has rest i hrest).imp (fun heq => ⟨by rw [heq.1], heq.2⟩) .under
    · exact .inr (.beside hk)
  keeps k i hk hne := by
    rcases has_edge_iff.1 hk with ⟨rfl, rfl⟩ | ⟨rest, rfl, hrest⟩ | hk
    · exact .at_label
    · exact .under (h.keeps rest i hrest fun heq => hne (by rw [heq]))
    · exact .beside hk

end Inserted

end Edges

end LatentExpr
