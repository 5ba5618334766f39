import LatentExpr.Proofs.Token.Onward

/-!
Symbols are taken whole. Of a group the last definition counts, and the union is made of the last definitions
(`group?_eq_lookup`, `contains_all_iff`). Where a symbol comes next, a request takes the longest one of all
groups or nothing: for a group if the symbol belongs to it, by its text if that is the symbol, and as a single
byte if it is no longer than that (`takes_whole`). From inside of a character no symbol comes next.
-/
namespace LatentExpr

/-! ### Tables -/

namespace SymbolTable
variable {definitions : List (String × List String)} {groups : List (String × Matcher)} {name other symbol : String}
  {m : Matcher}

theorem lookup_define :
    (define name m groups).lookup other = if name = other then some m else groups.lookup other := by
  induction groups with
  | nil => exact lookup_cons name other m []
  | cons first rest ih =>
    unfold define
    split
    · rename_i hname
      rw [lookup_cons, lookup_cons, hname]
      split <;> rfl
    · rename_i hname
      rw [lookup_cons, lookup_cons, ih]
      split
      · rename_i hfirst
        rw [if_neg fun h => hname (hfirst.trans h.symm)]
      · rfl

theorem mem_keys_define :
    other ∈ (define name m groups).map Prod.fst ↔ other = name ∨ other ∈ groups.map Prod.fst := by
  induction groups with
  | nil => simp [define]
  | cons first rest ih =>
    unfold define
    split
    · rename_i h
      simp [h]
    · rw [List.map_cons, List.mem_cons, ih, List.map_cons, List.mem_cons, or_left_comm]

theorem nodup_keys_define (h : (groups.map Prod.fst).Nodup) : ((define name m groups).map Prod.fst).Nodup := by
  induction groups with
  | nil => exact List.nodup_singleton name
  | cons first rest ih =>
    rw [List.map_cons, List.nodup_cons] at h
    unfold define
    split
    · rename_i hname
      rw [List.map_cons, List.nodup_cons, ← hname]
      exact h
    · rename_i hname
      rw [List.map_cons, List.nodup_cons, mem_keys_define]
      exact ⟨fun hmem => hmem.elim hname h.1, ih h.2⟩

/-- No group is listed twice, and a group has its last definition. -/
theorem groups_ofGroups (definitions : List (String × List String)) :
    ((ofGroups definitions).groups.map Prod.fst).Nodup ∧
      ∀ name, (ofGroups definitions).groups.lookup name =
        (definitions.reverse.lookup name).map Matcher.ofSymbols := by
  induction definitions using List.reverseRecOn with
  | nil => exact ⟨.nil, fun _ => rfl⟩
  | append_singleton definitions last ih =>
    have hgroups : (ofGroups (definitions ++ [last])).groups =
        define last.1 (.ofSymbols last.2) (ofGroups definitions).groups := List.foldl_concat ..
    rw [hgroups]
    refine ⟨nodup_keys_define ih.1, fun name => ?_⟩
    rw [lookup_define, ih.2, List.reverse_concat, lookup_cons]
    split <;> rfl

theorem lookup_of_mem (hnodup : (groups.map Prod.fst).Nodup) (h : (name, m) ∈ groups) :
    groups.lookup name = some m := by
  obtain ⟨before, after, rfl⟩ := List.append_of_mem h
  refine List.lookup_eq_some_iff.2 ⟨before, after, rfl, fun g hg => ?_⟩
  rw [List.map_append, List.map_cons] at hnodup
  have hne : g.1 ≠ name := (List.nodup_append.1 hnodup).2.2 _ (List.mem_map_of_mem hg) _ List.mem_cons_self
  simpa using hne.symm

/-- A symbol belongs to a group by the last definition of the group. -/
def Defines (definitions : List (String × List String)) (name symbol : String) : Prop :=
  ∃ symbols, definitions.reverse.lookup name = some symbols ∧ symbol ∈ symbols

theorem group?_eq_lookup (h : name ≠ allName) :
    (ofGroups definitions).group? name = (definitions.reverse.lookup name).map Matcher.ofSymbols := by
  rw [group?, if_neg h, (groups_ofGroups definitions).2]

theorem mem_all_iff :
    symbol ∈ (ofGroups definitions).all.symbols ↔ symbol ≠ "" ∧ ∃ name, Defines definitions name symbol := by
  obtain ⟨hnodup, hlookup⟩ := groups_ofGroups definitions
  refine (Matcher.mem_symbols_ofSymbols _ symbol).trans (and_comm.trans (and_congr_right fun hne => ?_))
  rw [List.mem_flatMap]
  constructor
  · rintro ⟨⟨name, m⟩, hg, hs⟩
    have hlast := lookup_of_mem hnodup hg
    rw [hlookup] at hlast
    obtain ⟨symbols, hsymbols, rfl⟩ := Option.map_eq_some_iff.1 hlast
    exact ⟨name, symbols, hsymbols, ((Matcher.mem_symbols_ofSymbols _ symbol).1 hs).1⟩
  · rintro ⟨name, symbols, hsymbols, hs⟩
    have hlast := hlookup name
    rw [hsymbols] at hlast
    obtain ⟨before, after, heq, -⟩ := List.lookup_eq_some_iff.1 hlast
    refine ⟨(name, .ofSymbols symbols), ?_, (Matcher.mem_symbols_ofSymbols _ symbol).2 ⟨hs, hne⟩⟩
    show _ ∈ (ofGroups definitions).groups
    rw [heq]
    exact List.mem_append_right _ List.mem_cons_self

theorem contains_all_iff :
    (ofGroups definitions).all.contains symbol = true ↔
      symbol ≠ "" ∧ ∃ name, Defines definitions name symbol :=
  (Matcher.contains_iff_mem _ symbol).trans mem_all_iff

/-! ### The longest symbol -/

/-- The longest symbol of all groups that begins an input. -/
structure Leads (definitions : List (String × List String)) (input : List UInt8) (symbol : String) : Prop where
  nonempty : symbol ≠ ""
  defined : ∃ name, Defines definitions name symbol
  begins : Matcher.bytes symbol.toList <+: input
  longest : ∀ other, (∃ name, Defines definitions name other) → Matcher.bytes other.toList <+: input →
    other.utf8ByteSize ≤ symbol.utf8ByteSize

section
variable {input : List UInt8}

theorem longestMatch?_all_iff :
    (ofGroups definitions).all.longestMatch? input = some symbol ↔ Leads definitions input symbol := by
  have hbegins {s : String} : Matcher.Begins ((ofGroups definitions).groups.flatMap fun g => g.2.symbols) input s ↔
      (s ≠ "" ∧ ∃ name, Defines definitions name s) ∧ Matcher.bytes s.toList <+: input :=
    Matcher.begins_iff.trans (and_congr_left fun _ => mem_all_iff)
  refine (Matcher.longestMatch?_eq_some_iff _ input symbol).trans ⟨fun ⟨h, hlongest⟩ => ?_, fun h => ?_⟩
  · obtain ⟨⟨hne, hdefined⟩, hpre⟩ := hbegins.1 h
    refine ⟨hne, hdefined, hpre, fun other hother hbegin => ?_⟩
    by_cases hempty : other = ""
    · rw [hempty]
      exact Nat.zero_le _
    · exact hlongest other (hbegins.2 ⟨⟨hempty, hother⟩, hbegin⟩)
  · refine ⟨hbegins.2 ⟨⟨h.nonempty, h.defined⟩, h.begins⟩, fun other hother => ?_⟩
    obtain ⟨⟨-, hdefined⟩, hbegin⟩ := hbegins.1 hother
    exact h.longest other hdefined hbegin

/-- A group finds the longest symbol of all groups exactly if the symbol belongs to it. -/
theorem Leads.longestMatch?_group_iff (h : Leads definitions input symbol) (hname : name ≠ allName) :
    ((ofGroups definitions).group? name).bind (·.longestMatch? input) = some symbol ↔
      Defines definitions name symbol := by
  rw [group?_eq_lookup hname, Option.bind_map, Option.bind_eq_some_iff]
  refine exists_congr fun symbols => and_congr_right fun hsymbols => ?_
  refine (Matcher.longestMatch?_eq_some_iff symbols input symbol).trans ⟨fun hlong => hlong.1.1, fun hmem => ?_⟩
  exact ⟨⟨hmem, h.nonempty, h.begins⟩, fun other hother =>
    h.longest other ⟨name, symbols, hsymbols, hother.1⟩ hother.2.2⟩

theorem Leads.size_pos (h : Leads definitions input symbol) : 0 < symbol.utf8ByteSize := by
  refine Nat.pos_of_ne_zero fun hzero => h.nonempty ?_
  exact String.utf8ByteSize_eq_zero_iff.1 hzero

end

end SymbolTable

/-! ### Requests -/

namespace Matcher

/-- A text is matched as its bytes are. -/
theorem longestIn?_eq_longestMatch? (symbols : List String) (text : List Char) :
    (ofSymbols symbols).longestIn? text = (ofSymbols symbols).longestMatch? (bytes text) := by
  rcases longestIn?_spec symbols text with ⟨symbol, hmem, hpre, heq, hmax⟩ | ⟨heq, hnone⟩
  · rw [heq, eq_comm, longestMatch?_eq_some_iff]
    refine ⟨begins_iff.2 ⟨hmem, bytes_prefix_iff.2 hpre⟩, fun other hother => ?_⟩
    obtain ⟨hin, hbegin⟩ := begins_iff.1 hother
    have hle := (bytes_prefix_iff.2 (hmax other hin (bytes_prefix_iff.1 hbegin))).length_le
    rwa [length_bytes_toList, length_bytes_toList] at hle
  · rw [heq, eq_comm, longestMatch?_eq_none_iff]
    intro symbol hbegins
    obtain ⟨hin, hbegin⟩ := begins_iff.1 hbegins
    exact hnone symbol hin (bytes_prefix_iff.1 hbegin)

end Matcher

namespace Lexer
variable {definitions : List (String × List String)} {source : List Char} {l start : Lexer}

open SymbolTable

/-- What can be read is matched as the bytes that are left: no symbol begins inside of a character. -/
theorem Within.longestIn?_readable {symbols : SymbolTable} (h : l.Within symbols source) (listed : List String) :
    (Matcher.ofSymbols listed).longestIn? l.readable = (Matcher.ofSymbols listed).longestMatch? l.upcoming := by
  rw [Matcher.longestIn?_eq_longestMatch?]
  cases hsplit : l.split with
  | nil => rw [readable, upcoming, hsplit, List.nil_append, List.isEmpty_nil, if_pos rfl]
  | cons b others =>
    have hreadable : l.readable = [] := by rw [readable, hsplit, List.isEmpty_cons, if_neg Bool.false_ne_true]
    have hupcoming : l.upcoming = b :: (others ++ Matcher.bytes l.rest) := by rw [upcoming, hsplit, List.cons_append]
    have hnothing (input : List UInt8) (hinput : ∀ first ∈ input.head?, Continues first) :
        (Matcher.ofSymbols listed).longestMatch? input = none := by
      refine (Matcher.longestMatch?_eq_none_iff listed input).2 fun symbol hbegins => ?_
      obtain ⟨-, hne, hbegin⟩ := hbegins
      obtain ⟨c, more, hsymbol⟩ := List.exists_cons_of_ne_nil (mt String.toList_eq_nil_iff.1 hne)
      obtain ⟨first, tail, hencode, hfirst, -⟩ := continues_encode c
      rw [hsymbol, Matcher.bytes_cons, hencode] at hbegin
      obtain ⟨after, rfl⟩ := hbegin
      exact hfirst (hinput first rfl)
    rw [hreadable, hupcoming, hnothing _ (fun first hfirst => absurd hfirst (Option.not_mem_none _)), eq_comm]
    refine hnothing _ fun first hfirst => ?_
    obtain rfl := Option.some.inj hfirst
    exact h.split _ (hsplit ▸ List.mem_cons_self)

theorem Within.longestIn?_all_iff (h : l.Within (.ofGroups definitions) source) {symbol : String} :
    l.symbols.all.longestIn? l.readable = some symbol ↔ Leads definitions l.upcoming symbol := by
  rw [h.table, ← longestMatch?_all_iff]
  exact Eq.congr_left (h.longestIn?_readable _)

theorem Within.longestIn?_group (h : l.Within (.ofGroups definitions) source) (name : String) :
    (l.symbols.group? name).bind (·.longestIn? l.readable) =
      ((ofGroups definitions).group? name).bind (·.longestMatch? l.upcoming) := by
  rw [h.table]
  cases hgroup : (ofGroups definitions).group? name with
  | none => rfl
  | some m =>
    obtain ⟨symbols, rfl⟩ := eq_ofSymbols_of_group? hgroup
    exact h.longestIn?_readable symbols

theorem name_ne_allName (group : OperatorGroup) : group.name ≠ allName := by
  cases group <;> decide

/-- How requests are answered from a position with some bytes in front of it. -/
structure TakesWhole (definitions : List (String × List String)) (input : List UInt8) (position : Nat)
    (l : Lexer) : Prop where
  symbol : ∀ group, ∃ answer l', consumeSymbol? group l = (.ok answer, l') ∧
    (∀ s, answer.map Name.text = some s ↔ Leads definitions input s ∧ Defines definitions group.name s) ∧
    l'.position = position + answer.elim 0 fun name => name.text.utf8ByteSize
  text : ∀ text, ∃ answer l', consumeText text l = (.ok answer, l') ∧
    (answer = true ↔ Leads definitions input text) ∧
    l'.position = position + if answer then text.utf8ByteSize else 0
  byte : ∀ b, ∃ answer l', consumeByte b l = (.ok answer, l') ∧
    (answer = true ↔ input.head? = some b ∧ ∀ s, Leads definitions input s → s.utf8ByteSize = 1) ∧
    l'.position = position + if answer then 1 else 0

section
variable (hw : start.Within (.ofGroups definitions) source) (hadvance : advance l = (.ok (), start))
include hw hadvance

theorem Within.consumeSymbol? (group : OperatorGroup) :
    ∃ answer l', consumeSymbol? group l = (.ok answer, l') ∧
      (∀ s, answer.map Name.text = some s ↔
        Leads definitions start.upcoming s ∧ Defines definitions group.name s) ∧
      l'.position = start.position + answer.elim 0 fun name => name.text.utf8ByteSize := by
  have hall (s : String) : start.symbols.all.longestIn? start.readable = some s ↔
      Leads definitions start.upcoming s := hw.longestIn?_all_iff
  have hgroup := hw.longestIn?_group group.name
  have hbelongs {s : String} (hs : Leads definitions start.upcoming s) :=
    hs.longestMatch?_group_iff (name_ne_allName group)
  have hrefused (h : ∀ s, Leads definitions start.upcoming s → ¬ Defines definitions group.name s) :
      ∃ answer l', ((Except.ok none, start) : Except LexicalError (Option Name) × Lexer) = (.ok answer, l') ∧
        (∀ s, answer.map Name.text = some s ↔
          Leads definitions start.upcoming s ∧ Defines definitions group.name s) ∧
        l'.position = start.position + answer.elim 0 fun name => name.text.utf8ByteSize :=
    ⟨none, start, rfl, fun s => iff_of_false (Option.some_ne_none s).symm fun hs => h s hs.1 hs.2, rfl⟩
  rw [Lexer.consumeSymbol?, Lexing.bind_apply, hadvance]
  simp only [Lexing.bind_apply, Lexing.get_apply]
  split
  · rename_i hempty
    refine hrefused fun s hs => ?_
    rw [← hall, hw.table, List.isEmpty_iff.1 hempty, longestIn?_nil] at hs
    cases hs
  rw [hgroup]
  cases hfound : ((ofGroups definitions).group? group.name).bind (·.longestMatch? start.upcoming) with
  | none =>
    refine hrefused fun s hs hdefines => ?_
    rw [(hbelongs hs).2 hdefines] at hfound
    cases hfound
  | some symbol =>
    dsimp only
    split
    · rename_i hlong
      have htext : (start.interner.intern symbol).1.text = symbol := Interner.text_intern _ _
      refine ⟨some (start.interner.intern symbol).1, _, rfl, fun s => ?_, ?_⟩
      · rw [Option.map_some, htext, Option.some_inj]
        constructor
        · rintro rfl
          have hs := (hall _).1 hlong
          exact ⟨hs, (hbelongs hs).1 hfound⟩
        · rintro ⟨hs, -⟩
          exact Option.some.inj (hlong.symm.trans ((hall s).2 hs))
      · show start.position + byteCount symbol.toList = start.position + _
        rw [byteCount_toList, Option.elim_some, htext]
    · rename_i hlong
      refine hrefused fun s hs hdefines => hlong ?_
      rw [(hbelongs hs).2 hdefines] at hfound
      rw [(hall s).2 hs, hfound]

theorem Within.consumeText (text : String) :
    ∃ answer l', consumeText text l = (.ok answer, l') ∧
      (answer = true ↔ Leads definitions start.upcoming text) ∧
      l'.position = start.position + if answer then text.utf8ByteSize else 0 := by
  rw [Lexer.consumeText, Lexing.bind_apply, hadvance]
  simp only [Lexing.bind_apply, Lexing.get_apply]
  split
  · rename_i hcond
    have hlong := of_decide_eq_true (Bool.and_eq_true_iff.1 hcond).2
    refine ⟨true, _, rfl, iff_of_true rfl (hw.longestIn?_all_iff.1 hlong), ?_⟩
    show start.position + byteCount text.toList = start.position + text.utf8ByteSize
    rw [byteCount_toList]
  · rename_i hcond
    refine ⟨false, start, rfl, iff_of_false Bool.false_ne_true fun hleads => hcond ?_, rfl⟩
    have hlong := hw.longestIn?_all_iff.2 hleads
    refine Bool.and_eq_true_iff.2 ⟨?_, decide_eq_true hlong⟩
    cases hreadable : start.readable with
    | nil =>
      rw [hreadable, hw.table, longestIn?_nil] at hlong
      cases hlong
    | cons => rfl

theorem Within.consumeByte_eq (b : UInt8) :
    ∃ answer l', Lexer.consumeByte b l = (.ok answer, l') ∧
      (answer = true ↔ start.upcoming.head? = some b ∧
        ∀ s, Leads definitions start.upcoming s → s.utf8ByteSize = 1) ∧
      l'.position = start.position + if answer then 1 else 0 := by
  have hcond : start.nextByte? = some b ∧
      ((start.symbols.all.longestIn? start.readable).all fun s => decide (s.utf8ByteSize ≤ 1)) = true ↔
        start.upcoming.head? = some b ∧ ∀ s, Leads definitions start.upcoming s → s.utf8ByteSize = 1 := by
    rw [nextByte?_eq, Option.all_eq_true]
    refine and_congr_right fun _ => forall_congr' fun s => ?_
    rw [hw.longestIn?_all_iff, decide_eq_true_iff]
    refine forall_congr' fun hs => ?_
    have := hs.size_pos
    omega
  rw [Lexer.consumeByte, Lexing.bind_apply, hadvance]
  simp only [Lexing.bind_apply, Lexing.get_apply]
  split
  · rename_i htaken
    refine ⟨true, start.pastByte, rfl, iff_of_true rfl (hcond.1 htaken), ?_⟩
    unfold Lexer.pastByte
    split <;> rfl
  · rename_i hkept
    exact ⟨false, start, rfl, iff_of_false Bool.false_ne_true (mt hcond.2 hkept), rfl⟩

end

/-- Groups have their last definitions and the union has all of those. Wherever requests have led a lexer with
such a table and a byte comes next, nothing but the whole longest symbol is taken, from there on and only by
who asks for it. -/
theorem takes_whole (definitions : List (String × List String)) :
    (∀ name, name ≠ allName →
      (ofGroups definitions).group? name = (definitions.reverse.lookup name).map Matcher.ofSymbols) ∧
    (∀ symbol, (ofGroups definitions).all.contains symbol = true ↔
      symbol ≠ "" ∧ ∃ name, Defines definitions name symbol) ∧
    ∀ (source : String) (l start : Lexer) (b : UInt8), Reached source (.ofGroups definitions) l →
      peekByte? l = (.ok (some b), start) →
        TakesWhole definitions ((Matcher.bytes source.toList).drop start.position) start.position l := by
  refine ⟨fun _ hname => group?_eq_lookup hname, fun _ => contains_all_iff, fun source l start b hl hpeek => ?_⟩
  have hmoved := onward_advance l
  rw [peekByte?, Lexing.bind_apply] at hpeek
  cases hadvance : advance l with
  | mk answer l' =>
    rw [hadvance] at hpeek hmoved
    cases answer with
    | error e => cases hpeek
    | ok _ =>
      obtain ⟨-, rfl⟩ := Prod.mk.inj hpeek
      have hw := hl.within.onward hmoved
      rw [hw.drop_bytes]
      exact ⟨hw.consumeSymbol? hadvance, hw.consumeText hadvance, hw.consumeByte_eq hadvance⟩

/-- A group that is defined twice, and a symbol that begins one of another group. -/
def overlapping : List (String × List String) :=
  [("Equality", ["!"]), ("Assignment", ["="]), ("Equality", ["==", "é"])]

/-- The operator `==` is one of the later definition of its group, and it is not cut in two. -/
theorem takes_whole_overlapping :
    peekByte? (ofSource "==" (.ofGroups overlapping)) =
        (.ok (some 61), ofSource "==" (.ofGroups overlapping)) ∧
      TakesWhole overlapping [61, 61] 0 (ofSource "==" (.ofGroups overlapping)) ∧
      Leads overlapping [61, 61] "==" ∧ Defines overlapping "Equality" "==" ∧
      ¬ Defines overlapping "Assignment" "==" ∧ ¬ Defines overlapping "Equality" "!" := by
  have hrest : (ofSource "==" (.ofGroups overlapping)).rest = ['=', '='] := by rfl
  have hskip : skip (ofSource "==" (.ofGroups overlapping)) = (.ok (), ofSource "==" (.ofGroups overlapping)) :=
    skip_visible hrest (fun _ h => absurd h (by decide)) (fun _ h => absurd h (by decide)) (by decide)
  have hpeek : peekByte? (ofSource "==" (.ofGroups overlapping)) =
      (.ok (some 61), ofSource "==" (.ofGroups overlapping)) := by
    have hadvance : advance (ofSource "==" (.ofGroups overlapping)) = _ := hskip
    rw [peekByte?, Lexing.bind_apply, hadvance]
    rfl
  refine ⟨hpeek, (takes_whole overlapping).2.2 "==" _ _ 61 .start hpeek, ?_, ⟨_, rfl, by decide⟩, ?_, ?_⟩
  · exact longestMatch?_all_iff.1 (by decide +kernel)
  · rintro ⟨symbols, hsymbols, hmem⟩
    obtain rfl := Option.some.inj hsymbols
    revert hmem
    decide
  · rintro ⟨symbols, hsymbols, hmem⟩
    obtain rfl := Option.some.inj hsymbols
    revert hmem
    decide

end Lexer

end LatentExpr
