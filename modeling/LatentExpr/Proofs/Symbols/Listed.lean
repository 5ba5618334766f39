import LatentExpr.Symbols.Matcher
import Mathlib.Data.List.Sort
import Mathlib.Data.String.Basic

/-!
The symbols of a matcher. They are an ascending list of what was listed, so they depend on which symbols are
listed and on nothing else (`ofSymbols_congr`), and binary search finds each of them (`contains_ofSymbols`).
Their keys are their bytes, which tell symbols apart and keep what begins what (`bytes_prefix_iff`).
-/
namespace LatentExpr.Matcher

/-! ### Bytes -/

theorem bytes_cons (c : Char) (text : List Char) :
    bytes (c :: text) = String.utf8EncodeChar c ++ bytes text := rfl

/-- The first character can be read back from the bytes of a text. -/
theorem head_eq_of_encode_append_eq {c d : Char} {as bs : List UInt8}
    (h : String.utf8EncodeChar c ++ as = String.utf8EncodeChar d ++ bs) : c = d := by
  have hdecode := congrArg (fun l : List UInt8 => l.toByteArray.utf8DecodeChar? 0) h
  simp only [List.toByteArray_append, ByteArray.utf8DecodeChar?_utf8EncodeChar_append] at hdecode
  exact Option.some.inj hdecode

/-- The bytes of a text begin the bytes of another one when the text begins the other one. -/
theorem bytes_prefix_iff {a b : List Char} : bytes a <+: bytes b ↔ a <+: b := by
  constructor
  · intro h
    induction a generalizing b with
    | nil => exact List.nil_prefix
    | cons c a ih =>
      cases b with
      | nil =>
        rw [bytes_cons] at h
        have hnil := List.eq_nil_of_prefix_nil h
        exact absurd (List.append_eq_nil_iff.1 hnil).1 String.utf8EncodeChar_ne_nil
      | cons d b =>
        obtain ⟨rest, hrest⟩ := h
        rw [bytes_cons, bytes_cons, List.append_assoc] at hrest
        obtain rfl := head_eq_of_encode_append_eq hrest
        exact (List.cons_prefix_cons).2 ⟨rfl, ih ⟨rest, List.append_cancel_left hrest⟩⟩
  · rintro ⟨rest, rfl⟩
    exact ⟨bytes rest, by simp [bytes]⟩

theorem bytes_inj {a b : List Char} (h : bytes a = bytes b) : a = b :=
  (bytes_prefix_iff.1 (h ▸ List.prefix_refl _)).eq_of_length_le
    (bytes_prefix_iff.1 (h ▸ List.prefix_refl (bytes b))).length_le

theorem length_le_length_bytes (text : List Char) : text.length ≤ (bytes text).length := by
  induction text with
  | nil => exact Nat.le_refl 0
  | cons c text ih =>
    have := c.utf8Size_pos
    rw [bytes_cons, List.length_append, String.length_utf8EncodeChar, List.length_cons]
    omega

theorem length_bytes_toList (symbol : String) : (bytes symbol.toList).length = symbol.utf8ByteSize := by
  rw [← String.size_toByteArray, ← String.utf8Encode_toList, List.utf8Encode, List.size_toByteArray]
  rfl

/-- Two symbols that begin the same bytes are the same if they are as long. -/
theorem eq_of_bytes_prefix {a b : String} {input : List UInt8} (ha : bytes a.toList <+: input)
    (hb : bytes b.toList <+: input) (h : a.utf8ByteSize = b.utf8ByteSize) : a = b := by
  rw [← length_bytes_toList, ← length_bytes_toList] at h
  have hab : bytes a.toList <+: bytes b.toList := List.prefix_of_prefix_length_le ha hb (Nat.le_of_eq h)
  exact String.toList_inj.1 (bytes_inj (hab.eq_of_length h))

/-! ### The ascending list -/

/-- A symbol goes to its place in an ascending list. -/
theorem pairwise_insertSorted (symbol : String) {sorted : List String} (h : sorted.Pairwise (· < ·)) :
    (insertSorted symbol sorted).Pairwise (· < ·) := by
  induction sorted with
  | nil => exact List.pairwise_singleton ..
  | cons first rest ih =>
    obtain ⟨hfirst, hrest⟩ := List.pairwise_cons.1 h
    unfold insertSorted
    split
    · exact h
    · split
      · rename_i hlt
        refine List.pairwise_cons.2 ⟨fun other ho => ?_, h⟩
        rcases List.mem_cons.1 ho with rfl | ho
        · exact hlt
        · exact lt_trans hlt (hfirst other ho)
      · rename_i hne hge
        refine List.pairwise_cons.2 ⟨fun other ho => ?_, ih hrest⟩
        rcases (mem_insertSorted ..).1 ho with rfl | ho
        · exact lt_of_le_of_ne (not_lt.1 hge) (Ne.symm hne)
        · exact hfirst other ho

theorem pairwise_symbols_ofSymbols (symbols : List String) :
    (ofSymbols symbols).symbols.Pairwise (· < ·) := by
  show List.Pairwise (· < ·) (List.foldl _ _ _)
  apply List.foldlRecOn
  · exact List.Pairwise.nil
  · intro sorted h symbol _
    exact pairwise_insertSorted symbol h

/-- A matcher depends on which symbols are listed, the empty one apart, not on how they are listed. -/
theorem ofSymbols_congr {xs ys : List String} (h : ∀ s, s ≠ "" → (s ∈ xs ↔ s ∈ ys)) :
    ofSymbols xs = ofSymbols ys := by
  have hsymbols : (ofSymbols xs).symbols = (ofSymbols ys).symbols := by
    apply (pairwise_symbols_ofSymbols xs).eq_of_mem_iff (pairwise_symbols_ofSymbols ys)
    intro s
    rw [mem_symbols_ofSymbols, mem_symbols_ofSymbols]
    exact and_congr_left (h s)
  show Matcher.mk (ofSymbols xs).symbols (Trie.build ((ofSymbols xs).symbols.map _)).table
    (List.foldl _ _ (ofSymbols xs).symbols) = _
  rw [hsymbols]
  rfl

/-- Binary search finds exactly the symbols. -/
theorem contains_iff_mem (symbols : List String) (symbol : String) :
    (ofSymbols symbols).contains symbol = true ↔ symbol ∈ (ofSymbols symbols).symbols := by
  have hordered : InOrder (compare · symbol) (ofSymbols symbols).symbols := by
    apply (pairwise_symbols_ofSymbols symbols).imp
    intro a b hab
    simp only [compare_lt_iff_lt, compare_gt_iff_gt]
    exact (lt_or_ge a symbol).imp_right fun hle => lt_of_le_of_lt hle hab
  rw [contains, Option.isSome_iff_exists]
  simp [hordered.bisect?_eq_some_iff]

theorem contains_ofSymbols (symbols : List String) (symbol : String) :
    (ofSymbols symbols).contains symbol = true ↔ symbol ∈ symbols ∧ symbol ≠ "" := by
  rw [contains_iff_mem, mem_symbols_ofSymbols]

/-! ### Keys -/

/-- The bytes of the symbols of a matcher, in the order of the symbols. -/
def keys (m : Matcher) : List (List UInt8) := m.symbols.map fun s => bytes s.toList

theorem getElem?_keys_eq_some_iff {m : Matcher} {index : Nat} {key : List UInt8} :
    m.keys[index]? = some key ↔ ∃ symbol, m.symbols[index]? = some symbol ∧ bytes symbol.toList = key := by
  simp [keys]

theorem ne_nil_of_mem_keys (symbols : List String) : ∀ key ∈ (ofSymbols symbols).keys, key ≠ [] := by
  intro key hkey
  obtain ⟨symbol, hsymbol, rfl⟩ := List.mem_map.1 hkey
  intro hnil
  exact ((mem_symbols_ofSymbols symbols symbol).1 hsymbol).2 (String.toList_inj.1 (bytes_inj hnil))

theorem nodup_keys (symbols : List String) : (ofSymbols symbols).keys.Nodup := by
  apply (pairwise_symbols_ofSymbols symbols).nodup.map
  intro a b hab
  exact String.toList_inj.1 (bytes_inj hab)

end LatentExpr.Matcher
