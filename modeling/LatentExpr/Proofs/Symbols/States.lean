import LatentExpr.Proofs.Symbols.Edges
import LatentExpr.Proofs.Symbols.Listed
import Mathlib.Data.List.Induction

/-!
The table of states of a matcher. A prefix tree is a trie whose labels have one byte each (`toEdges`), and it
holds the keys that were entered, each with its index (`has_build_iff`). With every chain as one label it
holds the same keys (`has_compress_iff`). What is lowered is this trie, state by state: each state, what is
below it, what is beside it (`lower_eq`). So the table of a matcher is the root and the layout of one trie
(`toList_states`), which holds the symbols (`has_edges_ofSymbols`).
-/
namespace LatentExpr

open Matcher (Transition State)

namespace Trie

/-! ### Building -/

/-- The tree as a trie with labels of one byte. -/
def toEdges : Trie → Edges
  | leaf => .leaf
  | node b accept children next => .edge [b] accept children.toEdges next.toEdges

theorem inserted_path (index : Nat) (next : Trie) (b : UInt8) (key : List UInt8) :
    Edges.Inserted (b :: key) index next.toEdges (path index next b key).toEdges := by
  induction key generalizing b next with
  | nil => exact .before
  | cons c key ih =>
    have hbelow : Edges.Inserted ([b] ++ c :: key) index (.edge [b] none .leaf next.toEdges)
        (path index next b (c :: key)).toEdges := (ih leaf c).under
    exact hbelow.congr (by simp [Edges.has_edge_iff, Edges.not_has_leaf])

theorem inserted_insert (index : Nat) (b : UInt8) (key : List UInt8) (trie : Trie) :
    Edges.Inserted (b :: key) index trie.toEdges (trie.insert index b key).toEdges := by
  fun_induction insert index b key trie with
  | case1 => exact inserted_path ..
  | case2 => exact .at_label
  | case3 c accept children next d key ih =>
    show Edges.Inserted ([c] ++ d :: key) index _ _
    exact ih.under
  | case4 => exact inserted_path ..
  | case5 b key c accept children next _ _ ih => exact ih.beside

theorem sorted_path (index : Nat) {floor : Option UInt8} {next : Trie} {b : UInt8} (key : List UInt8)
    (hfloor : ∀ c ∈ floor, c < b) (h : next.toEdges.Sorted (some b)) :
    (path index next b key).toEdges.Sorted floor := by
  induction key generalizing b next floor with
  | nil => exact ⟨b, [], rfl, hfloor, trivial, h⟩
  | cons c key ih => exact ⟨b, [], rfl, hfloor, ih nofun trivial, h⟩

theorem sorted_insert (index : Nat) {floor : Option UInt8} {b : UInt8} {key : List UInt8} {trie : Trie}
    (h : trie.toEdges.Sorted floor) (hfloor : ∀ c ∈ floor, c < b) :
    (trie.insert index b key).toEdges.Sorted floor := by
  fun_induction insert index b key trie generalizing floor with
  | case1 => exact sorted_path index _ hfloor trivial
  | case2 => exact h
  | case3 c accept children next d key ih =>
    obtain ⟨first, more, heq, hc, hchildren, hnext⟩ := h
    exact ⟨first, more, heq, hc, ih hchildren nofun, hnext⟩
  | case4 b key c accept children next hne hlt =>
    refine sorted_path index _ hfloor ?_
    obtain ⟨first, more, heq, -, hchildren, hnext⟩ := h
    refine ⟨first, more, heq, ?_, hchildren, hnext⟩
    obtain ⟨rfl, -⟩ := List.cons.inj heq
    rintro _ ⟨⟩
    exact hlt
  | case5 b key c accept children next hne hge ih =>
    obtain ⟨first, more, heq, hc, hchildren, hnext⟩ := h
    refine ⟨first, more, heq, hc, hchildren, ih hnext ?_⟩
    obtain ⟨rfl, -⟩ := List.cons.inj heq
    rintro _ ⟨⟩
    exact (UInt8.lt_or_lt_of_ne hne).resolve_left hge

/-- A key that is not empty goes into the tree as it goes into a trie. -/
theorem inserted_enter (trie : Trie) {key : List UInt8} (h : key ≠ []) (index : Nat) :
    Edges.Inserted key index trie.toEdges (trie.enter key index).toEdges := by
  cases key with
  | nil => exact absurd rfl h
  | cons b key => exact inserted_insert ..

theorem sorted_enter {trie : Trie} (h : trie.toEdges.Sorted none) (key : List UInt8) (index : Nat) :
    (trie.enter key index).toEdges.Sorted none := by
  cases key with
  | nil => exact h
  | cons b key => exact sorted_insert index h nofun

theorem build_concat (keys : List (List UInt8)) (key : List UInt8) :
    build (keys ++ [key]) = (build keys).enter key keys.length := by
  simp [build, List.zipIdx_append]

/-- What entering a key keeps holds of a tree that was built. -/
theorem build_induction {P : Trie → Prop} (hleaf : P leaf)
    (henter : ∀ trie key index, P trie → P (trie.enter key index)) (keys : List (List UInt8)) : P (build keys) :=
  List.foldlRecOn _ _ hleaf fun trie h key _ => henter trie key.1 key.2 h

theorem sorted_build (keys : List (List UInt8)) : (build keys).toEdges.Sorted none := by
  apply build_induction (P := fun trie => trie.toEdges.Sorted none)
  · trivial
  · intro trie key index h
    exact sorted_enter h key index

/-- The tree of different keys holds each of them with its index. -/
theorem has_build_iff {keys : List (List UInt8)} (hne : ∀ key ∈ keys, key ≠ []) (hnodup : keys.Nodup)
    (key : List UInt8) (index : Nat) : (build keys).toEdges.Has key index ↔ keys[index]? = some key := by
  induction keys using List.reverseRecOn generalizing key index with
  | nil => simp [build, toEdges, Edges.not_has_leaf]
  | append_singleton keys last ih =>
    simp only [List.mem_append, List.mem_singleton] at hne
    obtain ⟨hkeys, -, hlast⟩ := List.nodup_append.1 hnodup
    have hold := ih (fun key hkey => hne key (.inl hkey)) hkeys
    have hnew := inserted_enter (build keys) (hne last (.inr rfl)) keys.length
    rw [build_concat]
    constructor
    · intro hk
      rcases hnew.of_has key index hk with ⟨rfl, rfl⟩ | hk
      · simp
      · have hin := (hold key index).1 hk
        rwa [List.getElem?_append_left (List.getElem?_eq_some_iff.1 hin).1]
    · intro hin
      rw [List.getElem?_append] at hin
      split at hin
      · refine hnew.keeps key index ((hold key index).2 hin) ?_
        exact hlast key (List.mem_of_getElem? hin) last (List.mem_singleton_self last)
      · obtain ⟨hindex, rfl⟩ := List.getElem?_eq_some_iff.1 hin
        have hend : index = keys.length := by
          simp only [List.length_singleton] at hindex
          omega
        subst hend
        simpa using hnew.has

/-! ### Chains -/

/-- The trie with every chain as one edge. -/
def compress : Trie → Edges
  | leaf => .leaf
  | node b accept children next =>
    have := size_chain_le accept children
    .edge (b :: (chain accept children).bytes) (chain accept children).accept
      (chain accept children).children.compress next.compress
termination_by trie => trie.size
decreasing_by all_goals simp only [size]; omega

/-- An edge that ends in a chain holds what it holds with the bytes of the chain in its label. -/
theorem has_chain_iff (label : List UInt8) (accept : Option Nat) (children : Trie) (next : Edges)
    {key : List UInt8} {index : Nat} :
    (Edges.edge (label ++ (chain accept children).bytes) (chain accept children).accept
      (chain accept children).children.toEdges next).Has key index ↔
      (Edges.edge label accept children.toEdges next).Has key index := by
  fun_induction chain accept children generalizing label with
  | case1 b accept children rest ih =>
    have hbytes : label ++ b :: rest.bytes = label ++ [b] ++ rest.bytes := List.append_cons ..
    rw [hbytes, ih]
    exact Edges.has_split_iff.symm
  | case2 => rw [List.append_nil]

theorem sorted_chain (accept : Option Nat) {children : Trie} (h : children.toEdges.Sorted none) :
    (chain accept children).children.toEdges.Sorted none := by
  fun_induction chain accept children with
  | case1 b accept children rest ih =>
    obtain ⟨_, _, -, -, hchildren, -⟩ := h
    exact ih hchildren
  | case2 => exact h

theorem has_compress_iff (trie : Trie) {key : List UInt8} {index : Nat} :
    trie.compress.Has key index ↔ trie.toEdges.Has key index := by
  fun_induction compress trie generalizing key index with
  | case1 => exact Iff.rfl
  | case2 b accept children next _ ihc ihn =>
    rw [toEdges, ← has_chain_iff [b] accept children next.toEdges, Edges.has_edge_iff, Edges.has_edge_iff]
    simp only [ihc, ihn, List.cons_append, List.nil_append]

theorem sorted_compress {floor : Option UInt8} {trie : Trie} (h : trie.toEdges.Sorted floor) :
    trie.compress.Sorted floor := by
  fun_induction compress trie generalizing floor with
  | case1 => trivial
  | case2 b accept children next _ ihc ihn =>
    obtain ⟨first, more, heq, hfloor, hchildren, hnext⟩ := h
    obtain ⟨rfl, rfl⟩ := List.cons.inj heq
    exact ⟨b, _, rfl, hfloor, ihc (sorted_chain accept hchildren), ihn hnext⟩

end Trie

/-! ### Layout -/

namespace Edges

/-- The edges of a state, if what is below the first one starts at some place of a table. -/
def outgoing : Edges → Nat → List Transition
  | leaf, _ => []
  | edge label _ below next, base =>
    ⟨label.headD 0, label, base⟩ :: next.outgoing (base + 1 + below.size)

/-- The states of a trie, the root apart, from some place of a table on: each state, what is below it, what
is beside it. -/
def layout : Edges → Nat → List State
  | leaf, _ => []
  | edge _ accept below next, base =>
    ⟨accept, below.outgoing (base + 1)⟩ ::
      (below.layout (base + 1) ++ next.layout (base + 1 + below.size))

@[simp] theorem length_layout (edges : Edges) (base : Nat) : (edges.layout base).length = edges.size := by
  induction edges generalizing base with
  | leaf => rfl
  | edge label accept below next ihb ihn =>
    simp only [layout, List.length_cons, List.length_append, ihb, ihn, size]
    omega

theorem Sorted.floor_lt_outgoing {b : UInt8} {edges : Edges} (h : edges.Sorted (some b)) (base : Nat) :
    ∀ e ∈ edges.outgoing base, b < e.first := by
  induction edges generalizing b base with
  | leaf => nofun
  | edge label accept below next _ ihn =>
    obtain ⟨first, more, rfl, hfloor, -, hnext⟩ := h
    refine List.forall_mem_cons.2 ⟨hfloor b rfl, fun e he => ?_⟩
    exact UInt8.lt_trans (hfloor b rfl) (ihn hnext _ e he)

end Edges

namespace Matcher

/-- Edges in ascending order of their first bytes, each labelled with bytes that start with its own. -/
structure Ordered (edges : List Transition) : Prop where
  ascending : edges.Pairwise fun e e' => e.first < e'.first
  labelled : ∀ e ∈ edges, ∃ more, e.label = e.first :: more

end Matcher

theorem Edges.Sorted.ordered_outgoing {floor : Option UInt8} {edges : Edges} (h : edges.Sorted floor)
    (base : Nat) : Matcher.Ordered (edges.outgoing base) := by
  induction edges generalizing floor base with
  | leaf => exact ⟨.nil, nofun⟩
  | edge label accept below next _ ihn =>
    obtain ⟨first, more, rfl, -, -, hnext⟩ := h
    obtain ⟨hascending, hlabelled⟩ := ihn hnext (base + 1 + below.size)
    exact ⟨.cons (hnext.floor_lt_outgoing _) hascending, List.forall_mem_cons.2 ⟨⟨more, rfl⟩, hlabelled⟩⟩

/-- Giving a pushed state its edges leaves the states around it as they are. -/
theorem Matcher.modify_pushed (states more : Array State) (accept : Option Nat) (edges : List Transition) :
    (states.push ⟨accept, []⟩ ++ more).modify states.size (fun state => { state with edges }) =
      states.push ⟨accept, edges⟩ ++ more := by
  have hdrop : (states.toList ++ ⟨accept, []⟩ :: more.toList).drop (states.size + 1) = more.toList := by
    rw [List.append_cons]
    exact List.drop_left' (by simp)
  apply Array.toList_inj.1
  simp [Array.toList_modify, List.modify_eq_take_cons_drop, hdrop]

/-- Lowering a tree appends the layout of its compressed trie. -/
theorem Trie.lower_eq (trie : Trie) (states : Array State) :
    trie.lower states =
      (trie.compress.outgoing states.size, states ++ (trie.compress.layout states.size).toArray) := by
  fun_induction Trie.lower trie states with
  | case1 => simp [compress, Edges.outgoing, Edges.layout]
  | case2 b accept children next states _ index below pushed hbelow patched beside lowered hbeside ihc ihn =>
    rw [compress]
    generalize chain accept children = found at *
    rw [ihc, Array.size_push, Prod.mk.injEq] at hbelow
    obtain ⟨rfl, rfl⟩ := hbelow
    have hpatched : patched = states.push ⟨found.accept, found.children.compress.outgoing (states.size + 1)⟩ ++
        (found.children.compress.layout (states.size + 1)).toArray := Matcher.modify_pushed ..
    have hsize : patched.size = states.size + 1 + found.children.compress.size := by
      simp only [hpatched, Array.size_append, Array.size_push, List.size_toArray, Edges.length_layout]
    rw [ihn, hsize, hpatched, Prod.mk.injEq] at hbeside
    obtain ⟨rfl, rfl⟩ := hbeside
    simp [Edges.outgoing, Edges.layout, index]

/-! ### Matchers -/

namespace Matcher

/-- The compressed trie of the symbols of a matcher. -/
def edges (m : Matcher) : Edges := (Trie.build m.keys).compress

/-- The table of a matcher is the root and the layout of its trie. -/
theorem toList_states (symbols : List String) :
    (ofSymbols symbols).states.toList =
      ⟨none, (ofSymbols symbols).edges.outgoing 1⟩ :: (ofSymbols symbols).edges.layout 1 := by
  show (Trie.table (Trie.build (ofSymbols symbols).keys)).toList = _
  rw [Trie.table, Trie.lower_eq, edges]
  simp

theorem sorted_edges (m : Matcher) : m.edges.Sorted none := Trie.sorted_compress (Trie.sorted_build m.keys)

/-- What the trie of some symbols holds. -/
theorem has_edges_ofSymbols (symbols : List String) (key : List UInt8) (index : Nat) :
    (ofSymbols symbols).edges.Has key index ↔ (ofSymbols symbols).keys[index]? = some key := by
  rw [edges, Trie.has_compress_iff]
  exact Trie.has_build_iff (ne_nil_of_mem_keys symbols) (nodup_keys symbols) key index

end Matcher

end LatentExpr
