import LatentExpr.Proofs.Text.Encoded
import LatentExpr.Proofs.Token.Bytewise
import LatentExpr.Proofs.Value.IndexKeys
import LatentExpr.Value.Method

/-!
Positions in strings. A search runs over bytes, and the text before the bytes that it found is counted in UTF-16 units.
Both codes are self-synchronizing, so that this is where the units occur first, and it is what `Text.unitsBefore?` comes
to, which looks for characters. The length of a string, the keys of its characters and what its methods tell of places
are all in units (`positions_of_strings`).
-/
namespace LatentExpr

/-! ### Places -/

namespace Text
variable {needle text : List Char} {i : Nat}

theorem length_units_cons (c : Char) (text : List Char) :
    (units (c :: text)).length = (units text).length + (charUnits c).length := by
  rw [units, List.flatMap_cons, List.length_append, Nat.add_comm]
  rfl

/-- The place that is found is behind the text before the first occurrence. -/
theorem unitsBefore?_eq_some_iff :
    unitsBefore? needle text = some i ↔
      ∃ before, before <+: text ∧ i = (units before).length ∧ FirstAt needle text before.length := by
  induction text generalizing i with
  | nil =>
    rw [unitsBefore?, Option.ite_none_right_eq_some, List.isEmpty_iff, Option.some.injEq]
    constructor
    · rintro ⟨rfl, rfl⟩
      exact ⟨[], List.nil_prefix, rfl, firstAt_zero_iff.2 List.nil_prefix⟩
    · rintro ⟨before, hbefore, rfl, hfirst⟩
      obtain rfl := List.prefix_nil.1 hbefore
      exact ⟨List.prefix_nil.1 hfirst.1, rfl⟩
  | cons c rest ih =>
    rw [unitsBefore?]
    by_cases hbegins : needle <+: c :: rest
    · rw [if_pos (List.isPrefixOf_iff_prefix.2 hbegins), Option.some.injEq]
      constructor
      · rintro rfl
        exact ⟨[], List.nil_prefix, rfl, firstAt_zero_iff.2 hbegins⟩
      · rintro ⟨before, -, rfl, hfirst⟩
        rw [List.length_eq_zero_iff.1 (hfirst.unique (firstAt_zero_iff.2 hbegins))]
        rfl
    · rw [if_neg (mt List.isPrefixOf_iff_prefix.1 hbegins), Option.map_eq_some_iff]
      constructor
      · rintro ⟨i, hi, rfl⟩
        obtain ⟨before, hbefore, rfl, hfirst⟩ := ih.1 hi
        exact ⟨c :: before, List.cons_prefix_cons.2 ⟨rfl, hbefore⟩, (length_units_cons c before).symm,
          firstAt_cons_succ_iff.2 ⟨hbegins, hfirst⟩⟩
      · rintro ⟨before, hbefore, rfl, hfirst⟩
        cases before with
        | nil => exact absurd (firstAt_zero_iff.1 hfirst) hbegins
        | cons d before =>
          obtain ⟨rfl, hrest⟩ := List.cons_prefix_cons.1 hbefore
          exact ⟨(units before).length, ih.2 ⟨before, hrest, rfl, (firstAt_cons_succ_iff.1 hfirst).2⟩,
            (length_units_cons d before).symm⟩

/-- The place that is found is the first one at which the units occur. -/
theorem unitsBefore?_eq_some_iff_firstAt :
    unitsBefore? needle text = some i ↔ FirstAt (units needle) (units text) i :=
  unitsBefore?_eq_some_iff.trans selfSynchronizing_charUnits.firstAt_iff.symm

theorem unitsBefore?_eq_none_iff :
    unitsBefore? needle text = none ↔ ∀ i, ¬ units needle <+: (units text).drop i := by
  rw [Option.eq_none_iff_forall_ne_some]
  constructor
  · intro hnone i hoccurs
    obtain ⟨j, hfirst⟩ := exists_firstAt hoccurs
    exact hnone j (unitsBefore?_eq_some_iff_firstAt.2 hfirst)
  · intro hnone i hsome
    exact hnone i (unitsBefore?_eq_some_iff_firstAt.1 hsome).1

end Text

namespace Bytewise

/-- The first offset at which bytes occur among other ones. -/
def offsetOf? (needle text : List UInt8) : Option Nat :=
  (List.range (text.length + 1)).find? fun offset => needle.isPrefixOf (text.drop offset)

/-- The number of units before the first occurrence of `needle`, which is looked for among the bytes. -/
def unitsBefore? (needle text : List Char) : Option (Option Nat) :=
  match offsetOf? (Matcher.bytes needle) (Matcher.bytes text) with
  | none => some none
  | some offset => (slice? text 0 offset).map fun before => some (Text.units before).length

theorem offsetOf?_eq_some_iff {needle text : List UInt8} {i : Nat} :
    offsetOf? needle text = some i ↔ FirstAt needle text i := by
  simp only [offsetOf?, List.find?_range_eq_some, List.isPrefixOf_iff_prefix, List.mem_range, Bool.not_eq_true',
    ← Bool.not_eq_true]
  constructor
  · rintro ⟨hoccurs, -, hfirst⟩
    exact ⟨hoccurs, hfirst⟩
  · intro hfirst
    have hle := hfirst.add_length_le
    exact ⟨hfirst.1, by omega, hfirst.2⟩

/-- Nothing is cut inside of a character, and the place is the one that is found among characters. -/
theorem unitsBefore?_eq (needle text : List Char) :
    unitsBefore? needle text = some (Text.unitsBefore? needle text) := by
  rw [unitsBefore?]
  cases hoffset : offsetOf? (Matcher.bytes needle) (Matcher.bytes text) with
  | none =>
    refine congrArg some (Option.eq_none_iff_forall_ne_some.2 fun i hi => ?_).symm
    obtain ⟨before, hbefore, -, hfirst⟩ := Text.unitsBefore?_eq_some_iff.1 hi
    have hbytes := selfSynchronizing_utf8.firstAt_iff.2 ⟨before, hbefore, rfl, hfirst⟩
    exact absurd (offsetOf?_eq_some_iff.2 hbytes) (hoffset ▸ nofun)
  | some offset =>
    obtain ⟨before, hbefore, rfl, hfirst⟩ := selfSynchronizing_utf8.firstAt_iff.1 (offsetOf?_eq_some_iff.1 hoffset)
    have hslice : slice? text 0 (before.flatMap String.utf8EncodeChar).length = some before := by
      obtain ⟨after, rfl⟩ := hbefore
      exact slice?_eq_some_iff.2 ⟨[], after, rfl, rfl, (Matcher.length_bytes before).trans (Nat.zero_add _).symm⟩
    rw [Text.unitsBefore?_eq_some_iff.2 ⟨before, hbefore, rfl, hfirst⟩]
    simp only [hslice, Option.map_some]

end Bytewise

/-! ### Whole numbers -/

namespace Value

/-- A value is a whole number, and is not one to which another number was rounded. -/
def IsExactly (v : Value) (n : Int) : Prop := v = .number (.ofInt n) ∧ (Number.ofInt n).toInt? = some n

theorem isExactly_ofNat {n : Nat} (h : n < 2 ^ 53) : (ofNat n).IsExactly n := by
  have heq : Number.ofInt n = Number.ofNat n := by
    rw [Number.ofInt, decide_eq_false (Int.not_lt.2 (Int.natCast_nonneg n)), Int.natAbs_natCast, Number.ofNat]
  exact ⟨congrArg number heq.symm, (congrArg Number.toInt? heq).trans (Number.toInt?_ofNat h)⟩

theorem IsExactly.unique {v : Value} {m n : Int} (hm : v.IsExactly m) (hn : v.IsExactly n) : m = n := by
  have heq := Value.number.inj (hm.1.symm.trans hn.1)
  exact Option.some.inj (hm.2.symm.trans ((congrArg Number.toInt? heq).trans hn.2))

/-- A place as a whole number; nowhere is minus one. -/
def placeNumber : Option Nat → Int
  | some i => i
  | none => -1

theorem isExactly_indexValue_iff {place : Option Nat} (hplace : ∀ i ∈ place, i < 2 ^ 53) {n : Int} :
    (indexValue place).IsExactly n ↔ placeNumber place = n := by
  have hexactly : (indexValue place).IsExactly (placeNumber place) := by
    cases place with
    | none => exact ⟨rfl, by decide +kernel⟩
    | some i => exact isExactly_ofNat (hplace i rfl)
  exact ⟨hexactly.unique, fun heq => heq ▸ hexactly⟩

end Value

/-! ### Characters -/

namespace Text

/-- What a unit shows on its own: the character that it is, or the replacement character if it is half of a pair. -/
def Shows (unit : Nat) (c : Char) : Prop := if 0xD800 ≤ unit ∧ unit ≤ 0xDFFF then c = '\ufffd' else c.toNat = unit

theorem lt_of_mem_units {text : List Char} {unit : Nat} (h : unit ∈ units text) : unit < 0x10000 := by
  obtain ⟨c, -, hunit⟩ := List.mem_flatMap.1 h
  rcases charUnits_cases c with ⟨heq, hsmall, -⟩ | ⟨high, low, heq, -, hhigh, ⟨-, hlow⟩, -⟩
  · rw [heq, List.mem_singleton] at hunit
    omega
  · rw [heq, List.mem_pair] at hunit
    omega

theorem shows_unitChar {unit : Nat} (h : unit < 0x10000) : Shows unit (unitChar unit) := by
  unfold Shows unitChar
  split_ifs with hhalf
  · rfl
  · rw [Char.toNat_ofNat, if_pos]
    unfold Nat.isValidChar
    omega

end Text

/-! ### Properties and methods -/

theorem StringMethod.ofName?_name (m : StringMethod) : ofName? m.name = some m := by cases m <;> decide

theorem StringMethod.ofName?_eq_none {key : String} (h : ∀ m : StringMethod, key ≠ m.name) : ofName? key = none := by
  rw [ofName?, List.find?_eq_none]
  intro m _
  rw [decide_eq_true_iff]
  exact (h m).symm

namespace Heap
variable {h : Heap} {s t key : String}

theorem stringProperty_length (hs : (Text.units s.toList).length < 2 ^ 32) :
    (stringProperty s "length").IsExactly (Text.units s.toList).length := by
  have hkey : arrayIndex? "length" = none := by decide
  have hle : (Text.units s.toList).length ≤ maxStringLength := Nat.le_of_lt_succ hs
  rw [stringProperty, hkey]
  show (Value.ofNat (min (Text.units s.toList).length maxStringLength)).IsExactly _
  rw [Nat.min_eq_left hle]
  exact Value.isExactly_ofNat (hs.trans (by decide))

theorem stringProperty_method (m : StringMethod) : stringProperty s m.name = .function (.stringMethod m) := by
  have hkey : arrayIndex? m.name = none := by cases m <;> decide
  have hlength : m.name ≠ "length" := by cases m <;> decide
  rw [stringProperty, hkey]
  simp only [hlength, if_false, StringMethod.ofName?_name, Option.map_some, Option.getD_some]

theorem stringProperty_index {index : Nat} (h : arrayIndex? key = some index) :
    stringProperty s key = (((Text.units s.toList)[index]?).map fun unit =>
      Value.string (String.ofList [Text.unitChar unit])).getD .undefined := by
  rw [stringProperty, h]

theorem stringProperty_other (hkey : arrayIndex? key = none) (hlength : key ≠ "length")
    (hmethod : ∀ m : StringMethod, key ≠ m.name) : stringProperty s key = .undefined := by
  rw [stringProperty, hkey]
  simp only [hlength, if_false, StringMethod.ofName?_eq_none hmethod, Option.map_none, Option.getD_none]

theorem arrayIndex?_toString {i : Nat} (hs : (Text.units s.toList).length < 2 ^ 32)
    (hi : i < (Text.units s.toList).length) : arrayIndex? (toString i) = some i :=
  arrayIndex?_eq_some_iff.2 ⟨(hi.trans hs).le.trans (by decide), rfl⟩

theorem stringProperty_ne_undefined_iff (hs : (Text.units s.toList).length < 2 ^ 32) (hlength : key ≠ "length")
    (hmethod : ∀ m : StringMethod, key ≠ m.name) :
    stringProperty s key ≠ .undefined ↔ ∃ i < (Text.units s.toList).length, key = toString i := by
  constructor
  · intro hdefined
    cases hkey : arrayIndex? key with
    | none => exact absurd (stringProperty_other hkey hlength hmethod) hdefined
    | some index =>
      refine ⟨index, ?_, (arrayIndex?_eq_some_iff.1 hkey).2⟩
      by_contra hbeyond
      rw [stringProperty_index hkey, List.getElem?_eq_none (Nat.le_of_not_lt hbeyond)] at hdefined
      exact hdefined rfl
  · rintro ⟨i, hi, rfl⟩
    rw [stringProperty_index (arrayIndex?_toString hs hi), List.getElem?_eq_getElem hi]
    exact nofun

/-- What `indexOf`, `includes` and `startsWith` tell of one text in another one, given the units of both: the first
place of the units, or minus one; whether it is not minus one; and whether it is zero. A text that is found does not go
on beyond the end. -/
structure Tells (needle text : List Nat) (found : Value) (contained first : Bool) : Prop where
  place : (∃ i : Nat, FirstAt needle text i ∧ found.IsExactly i) ∨
    (∀ i, ¬ needle <+: text.drop i) ∧ found.IsExactly (-1)
  contained_iff : contained = true ↔ ¬ found.IsExactly (-1)
  first_iff : first = true ↔ found.IsExactly 0
  inside : ∀ i : Nat, found.IsExactly i → i + needle.length ≤ text.length

theorem tells_unitsBefore? {needle text : List Char} (htext : (Text.units text).length < 2 ^ 32) :
    Tells (Text.units needle) (Text.units text) (indexValue (Text.unitsBefore? needle text))
      (Text.unitsBefore? needle text).isSome (needle.isPrefixOf text) := by
  have hplace : ∀ i ∈ Text.unitsBefore? needle text, i < 2 ^ 53 := fun i hi => by
    have hle := (Text.unitsBefore?_eq_some_iff_firstAt.1 hi).add_length_le
    omega
  have hexactly {n : Int} := Value.isExactly_indexValue_iff hplace (n := n)
  have hfirst : needle.isPrefixOf text = true ↔ Text.unitsBefore? needle text = some 0 := by
    rw [List.isPrefixOf_iff_prefix, Text.unitsBefore?_eq_some_iff_firstAt, firstAt_zero_iff]
    exact Text.selfSynchronizing_charUnits.prefix_iff.symm
  cases hfound : Text.unitsBefore? needle text with
  | none =>
    rw [hfound] at hexactly hfirst
    exact {
      place := .inr ⟨Text.unitsBefore?_eq_none_iff.1 hfound, hexactly.2 rfl⟩
      contained_iff := iff_of_false Bool.false_ne_true (not_not.2 (hexactly.2 rfl))
      first_iff := by
        rw [hfirst, hexactly]
        exact iff_of_false nofun nofun
      inside := fun i hi => absurd (hexactly.1 hi) nofun }
  | some place =>
    rw [hfound] at hexactly hfirst
    have hplace := Text.unitsBefore?_eq_some_iff_firstAt.1 hfound
    exact {
      place := .inl ⟨place, hplace, hexactly.2 rfl⟩
      contained_iff := iff_of_true rfl fun hi => absurd (hexactly.1 hi) nofun
      first_iff := by
        rw [hfirst, hexactly, Option.some.injEq]
        exact Int.natCast_eq_zero.symm
      inside := fun i hi => by
        rw [← Int.ofNat_inj.1 (hexactly.1 hi)]
        exact hplace.add_length_le }

/-- Positions in a string of fewer than two to the thirty-second units. The length is the number of the units; the keys
of its characters are the texts of the numbers below it, under each of which is what the unit shows; and the methods
that search tell of the units of the other text, as they would from a search of its bytes. -/
theorem positions_of_strings (h : Heap) (s t : String) (more : List Value)
    (hs : (Text.units s.toList).length < 2 ^ 32) :
    (∃ v, h.getProperty (.string s) "length" = .ok v ∧ v.IsExactly (Text.units s.toList).length) ∧
      (∀ (i unit : Nat), (Text.units s.toList)[i]? = some unit →
        ∃ c, Text.Shows unit c ∧ h.getProperty (.string s) (toString i) = .ok (.string (String.ofList [c]))) ∧
      (∀ key, key ≠ "length" → (∀ m : StringMethod, key ≠ m.name) →
        (h.getProperty (.string s) key ≠ .ok .undefined ↔ ∃ i < (Text.units s.toList).length, key = toString i)) ∧
      (∀ m : StringMethod, h.getProperty (.string s) m.name = .ok (.function (.stringMethod m))) ∧
      ∃ found contained first,
        h.callStringMethod .indexOf (.string s) (.string t :: more) = .ok found ∧
        h.callStringMethod .includes (.string s) (.string t :: more) = .ok (.bool contained) ∧
        h.callStringMethod .startsWith (.string s) (.string t :: more) = .ok (.bool first) ∧
        Tells (Text.units t.toList) (Text.units s.toList) found contained first ∧
        ∃ place, Bytewise.unitsBefore? t.toList s.toList = some place ∧ found = indexValue place := by
  refine ⟨⟨_, rfl, stringProperty_length hs⟩, ?characters, ?keys, ?methods, _, _, _, rfl, rfl, rfl,
    tells_unitsBefore? hs, _, Bytewise.unitsBefore?_eq .., rfl⟩
  case characters =>
    intro i unit hunit
    obtain ⟨hi, -⟩ := List.getElem?_eq_some_iff.1 hunit
    refine ⟨_, Text.shows_unitChar (Text.lt_of_mem_units (List.mem_of_getElem? hunit)), ?_⟩
    rw [getProperty, stringProperty_index (arrayIndex?_toString hs hi), hunit, Option.map_some, Option.getD_some]
  case keys =>
    intro key hlength hmethod
    rw [← stringProperty_ne_undefined_iff hs hlength hmethod, getProperty, ne_eq, ne_eq, Except.ok.injEq]
  case methods => exact fun m => congrArg _ (stringProperty_method m)

/-- A text is found behind three characters, which are four units and seven bytes; and either half of the pair before it
shows the replacement character. -/
theorem positions_of_strings_mixed :
    (Text.units "né😀€z".toList).length < 2 ^ 32 ∧
      (∃ found, Heap.callStringMethod ⟨#[], #[]⟩ .indexOf (.string "né😀€z") [.string "€z"] = .ok found ∧
        found.IsExactly 4) ∧
      ∀ i ∈ [2, 3], Heap.getProperty ⟨#[], #[]⟩ (.string "né😀€z") (toString i) = .ok (.string "\ufffd") := by
  have hs : (Text.units "né😀€z".toList).length < 2 ^ 32 := by decide
  obtain ⟨-, hcharacters, -, -, found, _, _, hfound, -, -, htells, -⟩ :=
    positions_of_strings ⟨#[], #[]⟩ "né😀€z" "€z" [] hs
  have hfirst : FirstAt (Text.units "€z".toList) (Text.units "né😀€z".toList) 4 :=
    ⟨by decide, by decide⟩
  refine ⟨hs, ⟨found, hfound, ?_⟩, fun i hi => ?_⟩
  · rcases htells.place with ⟨i, hi, hexactly⟩ | ⟨hnowhere, -⟩
    · rwa [hi.unique hfirst] at hexactly
    · exact absurd hfirst.1 (hnowhere 4)
  · obtain ⟨unit, hunit, hhalf⟩ : ∃ unit, (Text.units "né😀€z".toList)[i]? = some unit ∧
        0xD800 ≤ unit ∧ unit ≤ 0xDFFF := by
      fin_cases hi
      · exact ⟨0xD83D, by decide⟩
      · exact ⟨0xDE00, by decide⟩
    obtain ⟨c, hshows, hproperty⟩ := hcharacters i unit hunit
    rw [Text.Shows, if_pos hhalf] at hshows
    rw [hproperty, hshows]

end Heap

end LatentExpr
