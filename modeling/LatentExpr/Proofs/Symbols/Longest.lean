import LatentExpr.Proofs.Symbols.States

/-!
Longest match. A state of the table leads on along the one edge whose first byte comes next; what is held
behind that edge is what the state holds that starts with this byte (`LaidOut.leads`). So one turn of the
loop leaves what is to be found to the next state (`Leads.finds`), and the loop finds it without leaving the
table (`walk?_finds`).
-/
namespace LatentExpr

open Matcher (Transition State)

namespace Edges

/-! ### Where an edge leads -/

/-- A trie is in a table from some place on. -/
def LaidOut (edges : Edges) (states : Array State) (base : Nat) : Prop :=
  ∃ after, states.toList.drop base = edges.layout base ++ after

section
variable {states : Array State} {base : Nat} {label : List UInt8} {accept : Option Nat} {below next : Edges}
  (h : (edge label accept below next).LaidOut states base)
include h

theorem LaidOut.state : states[base]? = some ⟨accept, below.outgoing (base + 1)⟩ := by
  obtain ⟨after, h⟩ := h
  simpa [layout] using congrArg List.head? h

theorem LaidOut.under : below.LaidOut states (base + 1) := by
  obtain ⟨after, h⟩ := h
  refine ⟨next.layout (base + 1 + below.size) ++ after, ?_⟩
  simpa [layout] using congrArg (List.drop 1) h

theorem LaidOut.beside : next.LaidOut states (base + 1 + below.size) := by
  obtain ⟨after, h⟩ := h
  refine ⟨after, ?_⟩
  simpa [layout, Nat.add_assoc, Nat.add_comm 1] using congrArg (List.drop (below.size + 1)) h

end

/-- Where an edge leads: to a state of the table that has a trie below it. Of the keys that start with the
first byte of the edge, one may be its label, and the others are held in that trie behind the label. -/
structure Leads (edges : Edges) (states : Array State) (edge : Transition) (more : List UInt8)
    (accept : Option Nat) (below : Edges) : Prop where
  label : edge.label = edge.first :: more
  state : states[edge.target]? = some ⟨accept, below.outgoing (edge.target + 1)⟩
  laidOut : below.LaidOut states (edge.target + 1)
  sorted : below.Sorted none
  has_iff : ∀ key index, edges.Has (edge.first :: key) index ↔
    (key = more ∧ accept = some index) ∨ ∃ rest, key = more ++ rest ∧ below.Has rest index

theorem LaidOut.leads {states : Array State} {floor : Option UInt8} {edges : Edges} (hs : edges.Sorted floor)
    {base : Nat} (h : edges.LaidOut states base) {e : Transition} (he : e ∈ edges.outgoing base) :
    ∃ more accept below, edges.Leads states e more accept below := by
  induction edges generalizing floor base with
  | leaf => cases he
  | edge label accept below next _ ihn =>
    have hsorted := hs
    obtain ⟨first, more, rfl, -, hbelow, hnext⟩ := hs
    rcases List.mem_cons.1 he with rfl | he
    · exact ⟨more, accept, below, rfl, h.state, h.under, hbelow, fun _ _ => hsorted.has_first_iff⟩
    · have hne : e.first ≠ first := (UInt8.ne_of_lt (hnext.floor_lt_outgoing _ e he)).symm
      obtain ⟨more', accept', below', hleads⟩ := ihn hnext h.beside he
      refine ⟨more', accept', below', { hleads with has_iff := fun key index => ?_ }⟩
      rw [has_beside_iff hne]
      exact hleads.has_iff key index

/-- The first byte of a key is that of an edge. -/
theorem Sorted.exists_outgoing {floor : Option UInt8} {edges : Edges} (hs : edges.Sorted floor) (base : Nat)
    {b : UInt8} {key : List UInt8} {index : Nat} (hk : edges.Has (b :: key) index) :
    ∃ e ∈ edges.outgoing base, e.first = b := by
  induction edges generalizing floor base with
  | leaf => exact absurd hk not_has_leaf
  | edge label accept below next _ ihn =>
    obtain ⟨first, more, rfl, -, -, hnext⟩ := hs
    by_cases hb : b = first
    · exact ⟨_, List.mem_cons_self, hb.symm⟩
    · obtain ⟨e, he, hfirst⟩ := ihn hnext (base + 1 + below.size) ((has_beside_iff hb).1 hk)
      exact ⟨e, List.mem_cons_of_mem _ he, hfirst⟩

/-! ### The loop -/

/-- What is to be found on the way of an input through a trie: the index of the longest key that begins the
input, `best` if no key does. -/
inductive Finds (edges : Edges) (best : Option Nat) (input : List UInt8) : Option Nat → Prop where
  | longest {key : List UInt8} {index : Nat} (hk : edges.Has key index) (hp : key <+: input)
    (hmax : ∀ k i, edges.Has k i → k <+: input → k.length ≤ key.length) : Finds edges best input (some index)
  | best (hnone : ∀ key index, edges.Has key index → ¬ key <+: input) : Finds edges best input best

/-- No key begins an input whose first byte no edge has. -/
theorem Sorted.finds_best {edges : Edges} (hs : edges.Sorted none) (base : Nat) {best : Option Nat} {b : UInt8}
    {after : List UInt8} (hno : ∀ e ∈ edges.outgoing base, e.first ≠ b) :
    edges.Finds best (b :: after) best := by
  refine .best fun key index hk hp => ?_
  obtain ⟨c, key, rfl⟩ := List.exists_cons_of_ne_nil (hs.ne_nil_of_has hk)
  obtain ⟨rfl, -⟩ := List.cons_prefix_cons.1 hp
  obtain ⟨e, he, hfirst⟩ := hs.exists_outgoing base hk
  exact hno e he hfirst

section
variable {edges below : Edges} {states : Array State} {e : Transition} {more rest : List UInt8}
  {accept best : Option Nat} (hs : edges.Sorted none) (h : edges.Leads states e more accept below)
include hs h

/-- The keys that begin an input are behind the edge with its first byte. -/
theorem Leads.begins {after key : List UInt8} {index : Nat} (hk : edges.Has key index)
    (hp : key <+: e.first :: after) :
    ∃ key', key = e.first :: key' ∧ key' <+: after ∧
      ((key' = more ∧ accept = some index) ∨ ∃ rest, key' = more ++ rest ∧ below.Has rest index) := by
  obtain ⟨c, key, rfl⟩ := List.exists_cons_of_ne_nil (hs.ne_nil_of_has hk)
  obtain ⟨rfl, hp'⟩ := List.cons_prefix_cons.1 hp
  exact ⟨key, rfl, hp', (h.has_iff key index).1 hk⟩

/-- Where the label of that edge does not begin the input, no key does. -/
theorem Leads.finds_best {after : List UInt8} (hlabel : ¬ e.label <+: e.first :: after) :
    edges.Finds best (e.first :: after) best := by
  rw [h.label, List.cons_prefix_cons] at hlabel
  refine .best fun key index hk hp => hlabel ⟨rfl, ?_⟩
  obtain ⟨key', rfl, hp, ⟨rfl, -⟩ | ⟨rest, rfl, -⟩⟩ := h.begins hs hk hp
  · exact hp
  · exact (List.prefix_append ..).trans hp

/-- Where it does, what is to be found is found from the state behind the edge, in what is left. -/
theorem Leads.finds {found : Option Nat} (hfound : below.Finds (accept <|> best) rest found) :
    edges.Finds best (e.first :: (more ++ rest)) found := by
  have hunder : ∀ key index, below.Has key index → edges.Has (e.first :: (more ++ key)) index :=
    fun key index hk => (h.has_iff _ index).2 (.inr ⟨key, rfl, hk⟩)
  cases hfound with
  | @longest key index hk hp hmax =>
    refine .longest (hunder key index hk) (by simpa using hp) fun k i hk' hp' => ?_
    obtain ⟨k', rfl, hp', ⟨rfl, -⟩ | ⟨key', rfl, hbelow⟩⟩ := h.begins hs hk' hp'
    · simp
    · simpa using hmax key' i hbelow (by simpa using hp')
  | best hnone =>
    have hlabel : ∀ k i, edges.Has k i → k <+: e.first :: (more ++ rest) →
        k = e.first :: more ∧ accept = some i := by
      intro k i hk hp
      obtain ⟨k', rfl, hp', ⟨rfl, haccept⟩ | ⟨key', rfl, hk'⟩⟩ := h.begins hs hk hp
      · exact ⟨rfl, haccept⟩
      · exact absurd (by simpa using hp') (hnone key' i hk')
    cases haccept : accept with
    | none =>
      refine .best fun k i hk hp => ?_
      simpa [haccept] using (hlabel k i hk hp).2
    | some index =>
      refine .longest ((h.has_iff more index).2 (.inl ⟨rfl, haccept⟩)) (by simp) fun k i hk hp => ?_
      simp [(hlabel k i hk hp).1]

end

end Edges

namespace Matcher

theorem Ordered.inOrder {edges : List Transition} (h : Ordered edges) (b : UInt8) :
    InOrder (fun e : Transition => compare e.first b) edges := by
  apply h.ascending.imp
  intro e e' hlt
  simp only [Std.compare_eq_lt, Std.compare_eq_gt]
  by_cases hb : e.first < b
  · exact .inl hb
  · exact .inr (UInt8.lt_of_le_of_lt (UInt8.not_lt.1 hb) hlt)

/-- An edge that was searched for is there, and leads on. -/
theorem leads_of_bisect? {states : Array State} {edges : Edges} (hs : edges.Sorted none) {base : Nat}
    (h : edges.LaidOut states base) {b : UInt8} {e : Transition}
    (he : bisect? (fun e : Transition => compare e.first b) (edges.outgoing base) = some e) :
    e.first = b ∧ ∃ more accept below, edges.Leads states e more accept below := by
  have hfound := ((hs.ordered_outgoing base).inOrder b).bisect?_eq_some_iff.1 he
  exact ⟨Std.compare_eq_iff_eq.1 hfound.2, h.leads hs hfound.1⟩

/-- The loop from a state finds what is to be found through the trie of its edges, and does not leave the
table. -/
theorem walk?_finds {states : Array State} {edges : Edges} (hs : edges.Sorted none) {base : Nat}
    (h : edges.LaidOut states base) (accept best : Option Nat) (input : List UInt8) :
    ∃ found, walk? states ⟨accept, edges.outgoing base⟩ best input = some found ∧
      edges.Finds (accept <|> best) input found := by
  generalize hstate : State.mk accept (edges.outgoing base) = state
  fun_induction walk? states state best input generalizing edges base accept with
  | case1 state best =>
    subst hstate
    refine ⟨_, rfl, .best fun key index hk hp => ?_⟩
    exact hs.ne_nil_of_has hk (List.prefix_nil.1 hp)
  | case2 state best _ b after =>
    rename_i hsearch
    subst hstate
    have hno := ((hs.ordered_outgoing base).inOrder b).bisect?_eq_none_iff.1 hsearch
    simp only [ne_eq, Std.compare_eq_iff_eq] at hno
    exact ⟨_, rfl, hs.finds_best base hno⟩
  | case3 state best _ b after e hsearch =>
    rename_i hlabel
    subst hstate
    obtain ⟨rfl, more, accept', below, hleads⟩ := leads_of_bisect? hs h hsearch
    refine ⟨_, rfl, hleads.finds_best hs ?_⟩
    rintro ⟨rest, hrest⟩
    rw [List.isPrefixOf?_eq_some_iff_append_eq.2 hrest] at hlabel
    cases hlabel
  | case4 state best b after e hsearch rest hlabel htarget =>
    subst hstate
    obtain ⟨rfl, more, accept', below, hleads⟩ := leads_of_bisect? hs h hsearch
    rw [hleads.state] at htarget
    cases htarget
  | case5 state best _ b after e hsearch rest hlabel state' htarget hlength =>
    rename_i ih
    subst hstate
    obtain ⟨rfl, more, accept', below, hleads⟩ := leads_of_bisect? hs h hsearch
    rw [hleads.state, Option.some.injEq] at htarget
    obtain ⟨found, hwalk, hfinds⟩ := ih hleads.sorted hleads.laidOut accept' htarget
    rw [List.isPrefixOf?_eq_some_iff_append_eq, hleads.label, List.cons_append, List.cons.injEq] at hlabel
    refine ⟨found, hwalk, ?_⟩
    rw [← hlabel.2]
    exact hleads.finds hs hfinds
  | case6 state best b after e hsearch rest hlabel state' htarget hlength =>
    subst hstate
    obtain ⟨rfl, more, accept', below, hleads⟩ := leads_of_bisect? hs h hsearch
    rw [List.isPrefixOf?_eq_some_iff_append_eq, hleads.label, List.cons_append, List.cons.injEq] at hlabel
    simp [← hlabel.2] at hlength

/-! ### The longest symbol -/

/-- The loop ends inside of the table, with the longest symbol that begins the input if any does. -/
theorem scan?_cases (symbols : List String) (input : List UInt8) :
    (∃ symbol ∈ (ofSymbols symbols).symbols, bytes symbol.toList <+: input ∧
        (ofSymbols symbols).scan? input = some (some symbol) ∧
        ∀ s ∈ (ofSymbols symbols).symbols, bytes s.toList <+: input →
          s.utf8ByteSize ≤ symbol.utf8ByteSize) ∨
      ((ofSymbols symbols).scan? input = some none ∧
        ∀ s ∈ (ofSymbols symbols).symbols, ¬ bytes s.toList <+: input) := by
  have hroot : (ofSymbols symbols).states[0]? = some ⟨none, (ofSymbols symbols).edges.outgoing 1⟩ := by
    rw [← Array.getElem?_toList, toList_states, List.getElem?_cons_zero]
  have hlaid : (ofSymbols symbols).edges.LaidOut (ofSymbols symbols).states 1 := ⟨[], by simp [toList_states]⟩
  have hheld : ∀ s ∈ (ofSymbols symbols).symbols, ∃ index,
      (ofSymbols symbols).edges.Has (bytes s.toList) index := by
    intro s hs
    obtain ⟨index, hindex⟩ := List.mem_iff_getElem?.1 hs
    exact ⟨index, (has_edges_ofSymbols symbols _ index).2 (getElem?_keys_eq_some_iff.2 ⟨s, hindex, rfl⟩)⟩
  obtain ⟨found, hwalk, hfinds⟩ := walk?_finds (sorted_edges _) hlaid none none input
  cases hfinds with
  | @longest key index hk hp hmax =>
    obtain ⟨symbol, hsymbol, rfl⟩ := getElem?_keys_eq_some_iff.1 ((has_edges_ofSymbols symbols key index).1 hk)
    refine .inl ⟨symbol, List.mem_of_getElem? hsymbol, hp, by simp [scan?, hroot, hwalk, hsymbol], ?_⟩
    intro s hs hpre
    obtain ⟨i, hi⟩ := hheld s hs
    simpa only [length_bytes_toList] using hmax _ i hi hpre
  | best hnone =>
    refine .inr ⟨by simp [scan?, hroot, hwalk], fun s hs hpre => ?_⟩
    obtain ⟨i, hi⟩ := hheld s hs
    exact hnone _ i hi hpre

/-- The loop of a matcher never leaves its table. -/
theorem scan?_ofSymbols (symbols : List String) (input : List UInt8) :
    (ofSymbols symbols).scan? input = some ((ofSymbols symbols).longestMatch? input) := by
  rcases scan?_cases symbols input with ⟨symbol, -, -, hscan, -⟩ | ⟨hscan, -⟩
  · simp [longestMatch?, hscan]
  · simp [longestMatch?, hscan]

/-- A symbol of a list that is not empty and begins the bytes of an input. -/
def Begins (symbols : List String) (input : List UInt8) (symbol : String) : Prop :=
  symbol ∈ symbols ∧ symbol ≠ "" ∧ bytes symbol.toList <+: input

theorem begins_iff {symbols : List String} {input : List UInt8} {symbol : String} :
    Begins symbols input symbol ↔
      symbol ∈ (ofSymbols symbols).symbols ∧ bytes symbol.toList <+: input := by
  rw [mem_symbols_ofSymbols, Begins, and_assoc]

theorem longestMatch?_eq_some_iff (symbols : List String) (input : List UInt8) (symbol : String) :
    (ofSymbols symbols).longestMatch? input = some symbol ↔
      Begins symbols input symbol ∧
        ∀ other, Begins symbols input other → other.utf8ByteSize ≤ symbol.utf8ByteSize := by
  simp only [begins_iff, longestMatch?]
  rcases scan?_cases symbols input with ⟨found, hmem, hpre, heq, hmax⟩ | ⟨heq, hnone⟩
  · rw [heq, Option.join_some, Option.some_inj]
    constructor
    · rintro rfl
      exact ⟨⟨hmem, hpre⟩, fun other h => hmax other h.1 h.2⟩
    · rintro ⟨h, hlongest⟩
      have hle := hlongest found ⟨hmem, hpre⟩
      exact eq_of_bytes_prefix hpre h.2 (Nat.le_antisymm hle (hmax symbol h.1 h.2))
  · simp only [heq, Option.join_some, reduceCtorEq, false_iff]
    exact fun h => hnone symbol h.1.1 h.1.2

theorem longestMatch?_eq_none_iff (symbols : List String) (input : List UInt8) :
    (ofSymbols symbols).longestMatch? input = none ↔ ∀ symbol, ¬ Begins symbols input symbol := by
  simp only [begins_iff, longestMatch?]
  rcases scan?_cases symbols input with ⟨found, hmem, hpre, heq, -⟩ | ⟨heq, hnone⟩
  · simp only [heq, Option.join_some, reduceCtorEq, false_iff, not_forall, not_not]
    exact ⟨found, hmem, hpre⟩
  · simp only [heq, Option.join_some, true_iff]
    exact fun symbol h => hnone symbol h.1 h.2

/-- However symbols are listed, the loop over the table of their matcher ends inside of the table, with the
longest symbol that begins an input, and with nothing exactly where no symbol does. The matcher contains
exactly the listed symbols, the empty one apart. -/
theorem longestMatch?_ofSymbols (symbols : List String) :
    (∀ input, (ofSymbols symbols).scan? input = some ((ofSymbols symbols).longestMatch? input)) ∧
    (∀ input symbol, (ofSymbols symbols).longestMatch? input = some symbol ↔
      Begins symbols input symbol ∧
        ∀ other, Begins symbols input other → other.utf8ByteSize ≤ symbol.utf8ByteSize) ∧
    (∀ input, (ofSymbols symbols).longestMatch? input = none ↔
      ∀ symbol, ¬ Begins symbols input symbol) ∧
    ∀ symbol, (ofSymbols symbols).contains symbol = true ↔ symbol ∈ symbols ∧ symbol ≠ "" :=
  ⟨scan?_ofSymbols symbols, longestMatch?_eq_some_iff symbols, longestMatch?_eq_none_iff symbols,
    contains_ofSymbols symbols⟩

/-! ### Texts -/

theorem utf8ByteSize_le_reach (symbols : List String) {symbol : String}
    (h : symbol ∈ (ofSymbols symbols).symbols) :
    symbol.utf8ByteSize ≤ (ofSymbols symbols).reach := by
  show _ ≤ List.foldl _ _ (ofSymbols symbols).symbols
  suffices ∀ (sorted : List String) (reach : Nat),
      reach ≤ sorted.foldl (fun reach s => max reach s.utf8ByteSize) reach ∧
        ∀ s ∈ sorted, s.utf8ByteSize ≤ sorted.foldl (fun reach s => max reach s.utf8ByteSize) reach from
    (this _ 0).2 symbol h
  intro sorted
  induction sorted with
  | nil => simp
  | cons first rest ih =>
    intro reach
    obtain ⟨hle, hmax⟩ := ih (max reach first.utf8ByteSize)
    refine ⟨Nat.le_trans (Nat.le_max_left _ _) hle, fun s hs => ?_⟩
    rcases List.mem_cons.1 hs with rfl | hs
    · exact Nat.le_trans (Nat.le_max_right _ _) hle
    · exact hmax s hs

/-- A symbol that begins a text is in the part of it that is looked at. -/
theorem bytes_prefix_take_iff (symbols : List String) (text : List Char) {s : String}
    (hs : s ∈ (ofSymbols symbols).symbols) :
    bytes s.toList <+: bytes (text.take (ofSymbols symbols).reach) ↔ s.toList <+: text := by
  have hreach := utf8ByteSize_le_reach symbols hs
  have hlen := length_le_length_bytes s.toList
  rw [length_bytes_toList] at hlen
  rw [bytes_prefix_iff, List.prefix_take_iff]
  exact and_iff_left (Nat.le_trans hlen hreach)

/-- The longest symbol that begins a text, if any symbol does. Every other symbol that begins the text
begins this one. -/
theorem longestIn?_spec (symbols : List String) (text : List Char) :
    (∃ symbol, symbol ∈ (ofSymbols symbols).symbols ∧ symbol.toList <+: text ∧
        (ofSymbols symbols).longestIn? text = some symbol ∧
        ∀ s ∈ (ofSymbols symbols).symbols, s.toList <+: text → s.toList <+: symbol.toList) ∨
      ((ofSymbols symbols).longestIn? text = none ∧
        ∀ s ∈ (ofSymbols symbols).symbols, ¬ s.toList <+: text) := by
  have hpart : ∀ s ∈ (ofSymbols symbols).symbols,
      bytes s.toList <+: bytes (text.take (ofSymbols symbols).reach) ↔ s.toList <+: text :=
    fun _ => bytes_prefix_take_iff symbols text
  simp only [longestIn?, longestMatch?]
  rcases scan?_cases symbols (bytes (text.take (ofSymbols symbols).reach)) with
    ⟨symbol, hmem, hp, heq, hmax⟩ | ⟨heq, hnone⟩
  · refine .inl ⟨symbol, hmem, (hpart symbol hmem).1 hp, by simp [heq], fun s hs hpre => ?_⟩
    have hle := hmax s hs ((hpart s hs).2 hpre)
    rw [← length_bytes_toList, ← length_bytes_toList] at hle
    exact bytes_prefix_iff.1 (List.prefix_of_prefix_length_le ((hpart s hs).2 hpre) hp hle)
  · exact .inr ⟨by simp [heq], fun s hs hpre => hnone s hs ((hpart s hs).2 hpre)⟩

/-- What is found is a symbol that begins the text. -/
theorem of_longestIn? {symbols : List String} {text : List Char} {symbol : String}
    (h : (ofSymbols symbols).longestIn? text = some symbol) :
    symbol ∈ (ofSymbols symbols).symbols ∧ symbol.toList <+: text := by
  rcases longestIn?_spec symbols text with ⟨found, hmem, hpre, heq, -⟩ | ⟨hnone, -⟩
  · rw [heq] at h
    obtain rfl := Option.some.inj h
    exact ⟨hmem, hpre⟩
  · rw [hnone] at h
    cases h

/-- The text of which a symbol is found is the symbol and what is left behind as many characters. -/
theorem eq_append_drop_of_longestIn? {symbols : List String} {text : List Char} {symbol : String}
    (h : (ofSymbols symbols).longestIn? text = some symbol) :
    text = symbol.toList ++ text.drop symbol.length := by
  obtain ⟨-, after, hafter⟩ := of_longestIn? h
  rw [← hafter, ← String.length_toList, List.drop_left]

end Matcher

end LatentExpr
