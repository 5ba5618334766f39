import LatentExpr.Proofs.Symbols.States
import Mathlib.Data.Set.Card

/-!
The shape of a table of states. A place where a state has to be is told by the keys alone: one of them ends
there, or two of them part there. A trie whose siblings are in order and whose states all accept or branch
has exactly those places (`mem_paths_iff`), and the tree of the symbols with its chains as single edges is such
a trie (`compressed_compress`). So the shape of the table is read off the trie, and its size off the symbols
(`shape_states`).
-/
namespace LatentExpr

open Matcher (Transition State)

namespace Edges

/-! ### Compression -/

/-- The number of edges that leave a state. -/
def degree : Edges → Nat
  | leaf => 0
  | edge _ _ _ next => next.degree + 1

/-- A state that is no mere stop on a path: it accepts, or at least two edges leave it. -/
def Stays (accept : Option Nat) (below : Edges) : Prop := accept ≠ none ∨ 2 ≤ below.degree

/-- Every state below the root stays. -/
def Compressed : Edges → Prop
  | leaf => True
  | edge _ accept below next => Stays accept below ∧ below.Compressed ∧ next.Compressed

/-- No edge of a compressed trie leads nowhere. -/
theorem Compressed.exists_has {label : List UInt8} {accept : Option Nat} {below next : Edges}
    (h : (edge label accept below next).Compressed) :
    ∃ more index, (edge label accept below next).Has (label ++ more) index := by
  induction below generalizing label accept next with
  | leaf =>
    obtain ⟨index, rfl⟩ := Option.ne_none_iff_exists'.1 (h.1.resolve_right (by simp [degree]))
    exact ⟨[], index, by rw [List.append_nil]; exact .at_label⟩
  | edge label' accept' below' next' ih _ =>
    obtain ⟨more, index, hk⟩ := ih h.2.1
    exact ⟨label' ++ more, index, .under hk⟩

/-! ### Places -/

/-- The bytes on the way to each state below the root. -/
def paths : Edges → List (List UInt8)
  | leaf => []
  | edge label _ below next => label :: (below.paths.map (label ++ ·) ++ next.paths)

theorem length_paths (edges : Edges) : edges.paths.length = edges.size := by
  induction edges with
  | leaf => rfl
  | edge label accept below next ihb ihn =>
    simp only [paths, size, List.length_cons, List.length_append, List.length_map, ihb, ihn]
    omega

theorem mem_paths_edge {label path : List UInt8} {accept : Option Nat} {below next : Edges} :
    path ∈ (edge label accept below next).paths ↔
      path = label ∨ (∃ rest ∈ below.paths, path = label ++ rest) ∨ path ∈ next.paths := by
  simp only [paths, List.mem_cons, List.mem_append, List.mem_map, eq_comm]

/-- The ways to the states of a sorted trie start above its floor. -/
theorem Sorted.path_first_lt {b : UInt8} {edges : Edges} (h : edges.Sorted (some b)) {path : List UInt8}
    (hp : path ∈ edges.paths) : ∃ first more, path = first :: more ∧ b < first := by
  induction edges generalizing b with
  | leaf => cases hp
  | edge label accept below next _ ihn =>
    obtain ⟨first, more, rfl, hfloor, -, hnext⟩ := h
    have hlt := hfloor b rfl
    rcases mem_paths_edge.1 hp with rfl | ⟨rest, -, rfl⟩ | hp
    · exact ⟨first, more, rfl, hlt⟩
    · exact ⟨first, more ++ rest, rfl, hlt⟩
    · obtain ⟨first', more', rfl, hlt'⟩ := ihn hnext hp
      exact ⟨first', more', rfl, UInt8.lt_trans hlt hlt'⟩

theorem Sorted.ne_nil_of_path {floor : Option UInt8} {edges : Edges} (h : edges.Sorted floor)
    {path : List UInt8} (hp : path ∈ edges.paths) : path ≠ [] := by
  cases edges with
  | leaf => cases hp
  | edge label accept below next =>
    obtain ⟨first, more, rfl, -, -, hnext⟩ := h
    rcases mem_paths_edge.1 hp with rfl | ⟨rest, -, rfl⟩ | hp
    · nofun
    · nofun
    · obtain ⟨first', more', rfl, -⟩ := hnext.path_first_lt hp
      nofun

/-- No two states of a sorted trie are at one place. -/
theorem Sorted.nodup_paths {floor : Option UInt8} {edges : Edges} (h : edges.Sorted floor) :
    edges.paths.Nodup := by
  induction edges generalizing floor with
  | leaf => exact List.nodup_nil
  | edge label accept below next ihb ihn =>
    obtain ⟨first, more, rfl, -, hbelow, hnext⟩ := h
    -- The ways to the siblings start with a larger byte.
    have hbeside : ∀ rest, first :: more ++ rest ∉ next.paths := by
      intro rest hp
      obtain ⟨first', more', heq, hlt⟩ := hnext.path_first_lt hp
      obtain ⟨rfl, -⟩ := List.cons.inj heq
      exact UInt8.lt_irrefl _ hlt
    have hsplit : ((below.paths.map (first :: more ++ ·)) ++ next.paths).Nodup := by
      refine (ihb hbelow).map (List.append_right_injective _) |>.append (ihn hnext) ?_
      rintro _ hp hq
      obtain ⟨rest, -, rfl⟩ := List.mem_map.1 hp
      exact hbeside rest hq
    refine List.nodup_cons.2 ⟨fun hp => ?_, hsplit⟩
    rcases List.mem_append.1 hp with hp | hp
    · obtain ⟨rest, hrest, heq⟩ := List.mem_map.1 hp
      exact hbelow.ne_nil_of_path hrest (List.append_right_eq_self.1 heq)
    · exact hbeside [] (by rwa [List.append_nil])

/-! ### What the keys tell of a place -/

/-- Some key goes on with a byte after a place. -/
def Goes (edges : Edges) (path : List UInt8) (b : UInt8) : Prop :=
  ∃ more index, edges.Has (path ++ b :: more) index

/-- A key ends at a place, or two keys part there. -/
def Stop (edges : Edges) (path : List UInt8) : Prop :=
  (∃ index, edges.Has path index) ∨ ∃ x y, x ≠ y ∧ edges.Goes path x ∧ edges.Goes path y

theorem Stop.imp {edges edges' : Edges} {path path' : List UInt8} (h : edges.Stop path)
    (hhas : ∀ more index, edges.Has (path ++ more) index → edges'.Has (path' ++ more) index) :
    edges'.Stop path' := by
  rcases h with ⟨index, hk⟩ | ⟨x, y, hne, ⟨moreX, indexX, hx⟩, moreY, indexY, hy⟩
  · have hends := hhas [] index
    rw [List.append_nil, List.append_nil] at hends
    exact .inl ⟨index, hends hk⟩
  · exact .inr ⟨x, y, hne, ⟨moreX, indexX, hhas _ _ hx⟩, moreY, indexY, hhas _ _ hy⟩

/-- Where two edges leave a state, keys part. -/
theorem Compressed.parts {floor : Option UInt8} {edges : Edges} (hs : edges.Sorted floor)
    (hc : edges.Compressed) (hd : 2 ≤ edges.degree) : ∃ x y, x ≠ y ∧ edges.Goes [] x ∧ edges.Goes [] y := by
  match edges, hd with
  | edge labelA acceptA belowA (edge labelB acceptB belowB next), _ =>
    obtain ⟨moreA, indexA, hA⟩ := hc.exists_has
    obtain ⟨moreB, indexB, hB⟩ := hc.2.2.exists_has
    obtain ⟨x, xs, rfl, -, -, hnext⟩ := hs
    obtain ⟨y, ys, rfl, hfloor, -, -⟩ := hnext
    refine ⟨x, y, UInt8.ne_of_lt (hfloor x rfl), ⟨_, _, hA⟩, _, _, .beside hB⟩

/-- What begins two byte strings that part begins what they share. -/
theorem prefix_of_parting {label shared restX restY : List UInt8} {x y : UInt8} (hne : x ≠ y)
    (hx : label <+: shared ++ x :: restX) (hy : label <+: shared ++ y :: restY) : label <+: shared := by
  rcases List.prefix_or_prefix_of_prefix hx (List.prefix_append shared _) with h | ⟨rest, rfl⟩
  · exact h
  · cases rest with
    | nil => exact ⟨[], by simp only [List.append_nil]⟩
    | cons z rest =>
      have hzx := (List.cons_prefix_cons.1 ((List.prefix_append_right_inj _).1 hx)).1
      have hzy := (List.cons_prefix_cons.1 ((List.prefix_append_right_inj _).1 hy)).1
      exact absurd (hzx.symm.trans hzy) hne

/-- No key ends inside a label and no two part there. -/
theorem Sorted.label_prefix_of_stop {floor : Option UInt8} {first : UInt8} {more path : List UInt8}
    {accept : Option Nat} {below next : Edges}
    (h : (edge (first :: more) accept below next).Sorted floor)
    (hstop : (edge (first :: more) accept below next).Stop (first :: path)) : more <+: path := by
  have hbegins : ∀ {key index}, (edge (first :: more) accept below next).Has (first :: key) index →
      more <+: key := by
    intro key index hk
    rcases h.has_first_iff.1 hk with ⟨rfl, -⟩ | ⟨rest, rfl, -⟩
    · exact List.prefix_refl _
    · exact List.prefix_append ..
  rcases hstop with ⟨index, hk⟩ | ⟨x, y, hne, ⟨restX, indexX, hx⟩, restY, indexY, hy⟩
  · exact hbegins hk
  · exact prefix_of_parting hne (hbegins hx) (hbegins hy)

/-- The states of a compressed trie are where its keys end or part. -/
theorem mem_paths_iff {floor : Option UInt8} {edges : Edges} (hs : edges.Sorted floor)
    (hc : edges.Compressed) (path : List UInt8) : path ∈ edges.paths ↔ path ≠ [] ∧ edges.Stop path := by
  induction edges generalizing floor path with
  | leaf =>
    refine ⟨nofun, ?_⟩
    rintro ⟨-, ⟨_, hk⟩ | ⟨_, _, _, ⟨_, _, hk⟩, _⟩⟩
    · exact absurd hk not_has_leaf
    · exact absurd hk not_has_leaf
  | edge label accept below next ihb ihn =>
    have hsorted := hs
    obtain ⟨first, more, rfl, -, hbelow, hnext⟩ := hs
    obtain ⟨hstays, hcb, hcn⟩ := hc
    constructor
    · intro hp
      refine ⟨hsorted.ne_nil_of_path hp, ?_⟩
      rcases mem_paths_edge.1 hp with rfl | ⟨rest, hrest, rfl⟩ | hp
      · rcases hstays with ha | hd
        · obtain ⟨index, rfl⟩ := Option.ne_none_iff_exists'.1 ha
          exact .inl ⟨index, .at_label⟩
        · have hstop : below.Stop [] := .inr (Compressed.parts hbelow hcb hd)
          exact hstop.imp fun _ _ hk => .under hk
      · refine ((ihb hbelow hcb rest).1 hrest).2.imp fun _ _ hk => ?_
        rw [List.append_assoc]
        exact .under hk
      · exact ((ihn hnext hcn path).1 hp).2.imp fun _ _ hk => .beside hk
    · rintro ⟨hne, hstop⟩
      obtain ⟨b, path, rfl⟩ := List.exists_cons_of_ne_nil hne
      rw [mem_paths_edge]
      by_cases hb : b = first
      · subst hb
        obtain ⟨rest, rfl⟩ := hsorted.label_prefix_of_stop hstop
        by_cases hrest : rest = []
        · subst hrest
          exact .inl (by rw [List.append_nil])
        · refine .inr (.inl ⟨rest, (ihb hbelow hcb rest).2 ⟨hrest, hstop.imp fun tail index hk => ?_⟩, rfl⟩)
          rw [List.cons_append, List.append_assoc] at hk
          rcases hsorted.has_first_iff.1 hk with ⟨heq, -⟩ | ⟨key, heq, hk⟩
          · exact absurd (List.append_eq_nil_iff.1 (List.append_right_eq_self.1 heq)).1 hrest
          · rwa [List.append_cancel_left heq]
      · refine .inr (.inr ((ihn hnext hcn _).2 ⟨nofun, hstop.imp fun _ _ hk => ?_⟩))
        exact (has_beside_iff hb).1 hk

end Edges

/-! ### Prefix trees -/

namespace Trie

/-- Every state without edges accepts. -/
def Ripe : Trie → Prop
  | leaf => True
  | node _ accept children next => (accept ≠ none ∨ children ≠ leaf) ∧ children.Ripe ∧ next.Ripe

theorem path_ne_leaf (index : Nat) (next : Trie) (b : UInt8) (key : List UInt8) :
    path index next b key ≠ leaf := by
  cases key <;> nofun

theorem ripe_path (index : Nat) {next : Trie} (b : UInt8) (key : List UInt8) (h : next.Ripe) :
    (path index next b key).Ripe := by
  induction key generalizing b next with
  | nil => exact ⟨.inl (Option.some_ne_none index), trivial, h⟩
  | cons c key ih => exact ⟨.inr (path_ne_leaf _ _ _ _), ih c trivial, h⟩

theorem insert_ne_leaf (index : Nat) (b : UInt8) (key : List UInt8) (trie : Trie) :
    trie.insert index b key ≠ leaf := by
  fun_cases insert index b key trie with
  | case1 => exact path_ne_leaf _ _ _ _
  | case2 => nofun
  | case3 => nofun
  | case4 => exact path_ne_leaf _ _ _ _
  | case5 => nofun

theorem ripe_insert (index : Nat) (b : UInt8) (key : List UInt8) {trie : Trie} (h : trie.Ripe) :
    (trie.insert index b key).Ripe := by
  fun_induction insert index b key trie with
  | case1 => exact ripe_path index _ _ h
  | case2 => exact ⟨.inl (Option.some_ne_none index), h.2⟩
  | case3 c accept children next d key ih => exact ⟨.inr (insert_ne_leaf _ _ _ _), ih h.2.1, h.2.2⟩
  | case4 => exact ripe_path index _ _ h
  | case5 b key c accept children next _ _ ih => exact ⟨h.1, h.2.1, ih h.2.2⟩

theorem ripe_chain (accept : Option Nat) {children : Trie} (h : children.Ripe) :
    (chain accept children).children.Ripe := by
  fun_induction chain accept children with
  | case1 b accept children rest ih => exact ih h.2.1
  | case2 => exact h

/-- The number of edges that leave a state. -/
def degree : Trie → Nat
  | leaf => 0
  | node _ _ _ next => next.degree + 1

/-- A chain ends where a state accepts or branches. -/
theorem chain_stays {accept : Option Nat} {children : Trie} (h : accept ≠ none ∨ children ≠ leaf)
    (hr : children.Ripe) :
    (chain accept children).accept ≠ none ∨ 2 ≤ (chain accept children).children.degree := by
  fun_induction chain accept children with
  | case1 b accept children rest ih => exact ih hr.1 hr.2.1
  | case2 accept children hno =>
    cases children with
    | leaf => exact .inl (h.resolve_right (· rfl))
    | node b a c next =>
      cases next with
      | leaf => exact .inl fun hnone => hno b a c hnone rfl
      | node b' a' c' next => exact .inr (Nat.le_add_left ..)

theorem degree_compress (trie : Trie) : trie.compress.degree = trie.degree := by
  fun_induction compress trie with
  | case1 => rfl
  | case2 b accept children next _ _ ih => exact congrArg (· + 1) ih

theorem compressed_compress {trie : Trie} (h : trie.Ripe) : trie.compress.Compressed := by
  fun_induction compress trie with
  | case1 => trivial
  | case2 b accept children next _ ihc ihn =>
    refine ⟨(chain_stays h.1 h.2.1).imp_right fun hd => ?_, ihc (ripe_chain accept h.2.1), ihn h.2.2⟩
    rwa [degree_compress]

theorem ripe_enter {trie : Trie} (h : trie.Ripe) (key : List UInt8) (index : Nat) : (trie.enter key index).Ripe := by
  cases key with
  | nil => exact h
  | cons b key => exact ripe_insert index b key h

theorem ripe_build (keys : List (List UInt8)) : (build keys).Ripe := by
  apply build_induction
  · trivial
  · intro trie key index h
    exact ripe_enter h key index

end Trie

/-! ### Tables -/

namespace Edges

theorem Sorted.ordered_layout {floor : Option UInt8} {edges : Edges} (h : edges.Sorted floor) (base : Nat) :
    ∀ state ∈ edges.layout base, Matcher.Ordered state.edges := by
  induction edges generalizing floor base with
  | leaf => nofun
  | edge label accept below next ihb ihn =>
    obtain ⟨first, more, rfl, -, hbelow, hnext⟩ := h
    exact List.forall_mem_cons.2 ⟨hbelow.ordered_outgoing _,
      List.forall_mem_append.2 ⟨ihb hbelow _, ihn hnext _⟩⟩

theorem length_outgoing (edges : Edges) (base : Nat) : (edges.outgoing base).length = edges.degree := by
  induction edges generalizing base with
  | leaf => rfl
  | edge label accept below next _ ihn => exact congrArg (· + 1) (ihn _)

theorem Compressed.layout {edges : Edges} (h : edges.Compressed) (base : Nat) :
    ∀ state ∈ edges.layout base, state.accept ≠ none ∨ 2 ≤ state.edges.length := by
  induction edges generalizing base with
  | leaf => nofun
  | edge label accept below next ihb ihn =>
    refine List.forall_mem_cons.2 ⟨h.1.imp_right fun hd => ?_,
      List.forall_mem_append.2 ⟨ihb h.2.1 _, ihn h.2.2 _⟩⟩
    rwa [length_outgoing]

/-- The edges from the root and from what is below it lead to every state but the root, to each one once. -/
theorem perm_targets (edges : Edges) (base : Nat) :
    ((edges.outgoing base).map Transition.target ++
        (edges.layout base).flatMap fun state => state.edges.map Transition.target).Perm
      (List.range' base edges.size) := by
  induction edges generalizing base with
  | leaf => exact .nil
  | edge label accept below next ihb ihn =>
    have hsize : size (edge label accept below next) = (below.size + next.size) + 1 := by
      rw [size]
      omega
    simp only [outgoing, layout, List.map_cons, List.flatMap_cons, List.flatMap_append, List.cons_append]
    rw [hsize, List.range'_succ, ← List.range'_append, Nat.one_mul]
    refine .cons base (.trans ?_ ((ihb (base + 1)).append (ihn (base + 1 + below.size))))
    -- What leads below the first edge stands between what leads to its siblings and below them.
    rw [← List.append_assoc (below.outgoing (base + 1) |>.map Transition.target)]
    exact List.perm_append_comm_assoc ..

end Edges

namespace Matcher

theorem compressed_edges (m : Matcher) : m.edges.Compressed := Trie.compressed_compress (Trie.ripe_build m.keys)

/-- Some symbol begins with a text of bytes and has this byte next. -/
def NextByte (symbols : List String) (path : List UInt8) (b : UInt8) : Prop :=
  ∃ s ∈ symbols, path ++ [b] <+: bytes s.toList

/-- A beginning of symbols, not empty, that is itself a symbol or after which two different bytes can come
next. -/
def Parting (symbols : List String) (path : List UInt8) : Prop :=
  path ≠ [] ∧ (∃ s ∈ symbols, path <+: bytes s.toList) ∧
    ((∃ s ∈ symbols, path = bytes s.toList) ∨
      ∃ x y, x ≠ y ∧ NextByte symbols path x ∧ NextByte symbols path y)

/-- The shape of a table of states. -/
structure Shape (symbols : List String) (states : Array State) : Prop where
  /-- The edges of a state are in ascending order of their first bytes, which begin their labels. -/
  ordered : ∀ state ∈ states, Ordered state.edges
  /-- An edge leads to every state but the root, only one does, and no edge leads elsewhere. -/
  targets : ∀ i, (states.toList.flatMap fun state => state.edges.map Transition.target).count i =
    if 0 < i ∧ i < states.size then 1 else 0
  /-- Every state but the root accepts or has two edges. -/
  stays : ∀ i (h : i < states.size), 0 < i → states[i].accept ≠ none ∨ 2 ≤ states[i].edges.length
  /-- There is a state for each place where symbols end or part, and the root. -/
  counted : (states.size : ℕ∞) = 1 + {path | Parting symbols path}.encard

/-- The keys of the trie are the bytes of the symbols. -/
theorem exists_has_iff (symbols : List String) {key : List UInt8} (hkey : key ≠ []) :
    (∃ index, (ofSymbols symbols).edges.Has key index) ↔ ∃ s ∈ symbols, key = bytes s.toList := by
  simp only [has_edges_ofSymbols, ← List.mem_iff_getElem?, keys, List.mem_map, mem_symbols_ofSymbols]
  constructor
  · intro h
    obtain ⟨s, hs, rfl⟩ := h
    exact ⟨s, hs.1, rfl⟩
  · intro h
    obtain ⟨s, hs, rfl⟩ := h
    refine ⟨s, ⟨hs, ?_⟩, rfl⟩
    intro hempty
    simp [hempty, bytes] at hkey

theorem goes_iff (symbols : List String) (path : List UInt8) (b : UInt8) :
    (ofSymbols symbols).edges.Goes path b ↔ NextByte symbols path b := by
  simp only [Edges.Goes, NextByte, List.prefix_iff_exists_append_eq, List.append_assoc, List.singleton_append]
  constructor
  · intro h
    obtain ⟨more, hk⟩ := h
    obtain ⟨s, hs, heq⟩ := (exists_has_iff symbols (by simp)).1 hk
    exact ⟨s, hs, more, heq⟩
  · intro h
    obtain ⟨s, hs, more, heq⟩ := h
    exact ⟨more, (exists_has_iff symbols (by simp)).2 ⟨s, hs, heq⟩⟩

/-- What a state has to be for, in the symbols and in the trie. -/
theorem parting_iff (symbols : List String) (path : List UInt8) :
    Parting symbols path ↔ path ∈ (ofSymbols symbols).edges.paths := by
  rw [Edges.mem_paths_iff (sorted_edges _) (compressed_edges _), Parting]
  refine and_congr_right fun hne => ?_
  simp only [Edges.Stop, exists_has_iff symbols hne, goes_iff]
  refine and_iff_right_of_imp ?_
  rintro (⟨s, hs, rfl⟩ | ⟨x, -, -, ⟨s, hs, hpre⟩, -⟩)
  · exact ⟨s, hs, List.prefix_refl _⟩
  · exact ⟨s, hs, (List.prefix_append ..).trans hpre⟩

theorem encard_parting (symbols : List String) :
    {path | Parting symbols path}.encard = ((ofSymbols symbols).edges.size : ℕ∞) := by
  have hset : {path | Parting symbols path} = ((ofSymbols symbols).edges.paths.toFinset : Set (List UInt8)) := by
    ext path
    rw [List.coe_toFinset]
    exact parting_iff symbols path
  rw [hset, Set.encard_coe_eq_coe_finsetCard,
    List.toFinset_card_of_nodup (sorted_edges _).nodup_paths, Edges.length_paths]

theorem size_states (symbols : List String) :
    (ofSymbols symbols).states.size = (ofSymbols symbols).edges.size + 1 := by
  rw [← Array.length_toList, toList_states, List.length_cons, Edges.length_layout]

theorem shape_states (symbols : List String) : Shape symbols (ofSymbols symbols).states := by
  have hsorted := sorted_edges (ofSymbols symbols)
  have htable := toList_states symbols
  have hsize := size_states symbols
  constructor
  case ordered =>
    intro state hstate
    rw [← Array.mem_toList_iff, htable] at hstate
    rcases List.mem_cons.1 hstate with rfl | hstate
    · exact hsorted.ordered_outgoing 1
    · exact hsorted.ordered_layout 1 state hstate
  case targets =>
    intro i
    rw [htable, List.flatMap_cons, (Edges.perm_targets ..).count_eq, (List.nodup_range' 1).count]
    simp only [List.mem_range'_1, hsize]
    congr 1
    rw [eq_iff_iff]
    omega
  case stays =>
    intro i hi hpos
    obtain ⟨i, rfl⟩ := Nat.exists_eq_add_one_of_ne_zero (Nat.ne_of_gt hpos)
    refine (compressed_edges (ofSymbols symbols)).layout 1 _ ?_
    simp only [← Array.getElem_toList, htable, List.getElem_cons_succ]
    exact List.getElem_mem _
  case counted =>
    rw [encard_parting, hsize]
    push_cast
    exact add_comm _ _

/-- However symbols are listed, the table of their matcher is in shape and has as many states as the matcher
counts, and every list with the same strings, the empty one apart, has the same matcher. -/
theorem canonical_ofSymbols (symbols : List String) :
    Shape symbols (ofSymbols symbols).states ∧
      (ofSymbols symbols).states.size = (ofSymbols symbols).stateCount ∧
        ∀ others, (∀ s, s ≠ "" → (s ∈ symbols ↔ s ∈ others)) → ofSymbols symbols = ofSymbols others :=
  ⟨shape_states symbols, rfl, fun _ h => ofSymbols_congr h⟩

/-- Two symbols that share a beginning need three states besides the root, in whatever order and however often
they are listed. -/
theorem canonical_ofSymbols_parting :
    (ofSymbols ["<==", "<=>"]).states.size = 4 ∧
      ofSymbols ["<==", "<=>"] = ofSymbols ["<=>", "", "<==", "<=>"] := by
  obtain ⟨-, hsize, hsame⟩ := canonical_ofSymbols ["<==", "<=>"]
  refine ⟨hsize.trans (by decide +kernel), hsame _ fun s hs => ?_⟩
  simp only [List.mem_cons, List.not_mem_nil, or_false, hs, false_or]
  grind

end Matcher

end LatentExpr
