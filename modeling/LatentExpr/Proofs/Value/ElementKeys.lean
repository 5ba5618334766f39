import LatentExpr.Proofs.Number.RoundTrip
import LatentExpr.Proofs.Value.IndexKeys

/-!
Elements by number and by text. Every multiple of a coarse enough power of ten that reads back as a whole number below
two to the fifty-third is that number, so its shortest decimal is, and its text are its digits. A text of nothing but
digits, on the other hand, is a decimal without a point or an exponent. So a number names the element that the text of
the number names, and a number that is negative or no whole one names none (`index_keys_canonical`).
-/
namespace LatentExpr

open Magnitude

-- a power of two with so large an exponent is not to be computed
attribute [local irreducible] Magnitude.unitsInOne

/-! ### Whole magnitudes -/

namespace Magnitude
variable {x : Magnitude} {n : ℕ}

/-- Where a whole magnitude begins not to be told from the next one. -/
theorem exists_units_two_pow : ∃ y : Magnitude, y.units = 2 ^ 53 * unitsInOne := by
  obtain ⟨shift, hshift, hone⟩ : ∃ shift, shift + 1 ≤ 2045 ∧ unitsInOne = 2 ^ shift :=
    ⟨1074, by decide, by decide +kernel⟩
  obtain ⟨y, hunits, -⟩ := exists_units (n := 2 ^ 52) (by decide) hshift
  refine ⟨y, hunits.trans ?_⟩
  rw [hone]
  ring

/-- A number that is read as a magnitude below two to the fifty-third is below it, too. -/
theorem Nearest.lt_two_pow (hx : x.Nearest (n * unitsInOne)) (hlt : x.units < 2 ^ 53 * unitsInOne) : n < 2 ^ 53 := by
  by_contra hle
  obtain ⟨y, hy⟩ := exists_units_two_pow
  have hbetween : (x.units : ℚ) ≤ y.units ∧ (y.units : ℚ) ≤ n * unitsInOne := by
    rw [hy]
    exact ⟨by exact_mod_cast hlt.le, by exact_mod_cast Nat.mul_le_mul_right _ (Nat.le_of_not_lt hle)⟩
  have hsame := (hx.of_between (.inr hbetween)).eq_of_units rfl
  rw [hsame, hy] at hlt
  exact lt_irrefl _ hlt

theorem Nearest.units_eq (hx : x.Nearest (n * unitsInOne)) (hn : n < 2 ^ 53) : x.units = n * unitsInOne := by
  obtain ⟨y, -, hunits, -⟩ := Number.ofNat_of_lt hn
  rw [hx.eq_of_units (y := y) (by rw [hunits]; push_cast; rfl), hunits]

/-- From two to the fifty-third on there are no fractions. -/
theorem dvd_units_of_le (h : 2 ^ 53 * unitsInOne ≤ x.units) : unitsInOne ∣ x.units := by
  obtain ⟨one, hone⟩ : ∃ one, unitsInOne = 2 ^ one := ⟨1074, by decide +kernel⟩
  have hsignificand := x.significand_lt
  rw [binade_eq] at hsignificand
  rw [hone] at h ⊢
  have hshift : one ≤ x.shift := by
    by_contra hlt
    refine absurd h (Nat.not_le_of_lt ?_)
    calc
      x.units = x.significand * 2 ^ x.shift := rfl
      _ < 2 ^ 53 * 2 ^ x.shift := Nat.mul_lt_mul_of_pos_right (by omega) (Nat.two_pow_pos _)
      _ ≤ 2 ^ 53 * 2 ^ one := Nat.mul_le_mul_left _ (Nat.pow_le_pow_right Nat.two_pos (by omega))
  exact Dvd.dvd.mul_left (pow_dvd_pow 2 hshift) _

/-- The shortest decimal of a whole number below two to the fifty-third is a multiple of one, as the number itself is,
so it is the number. -/
theorem IsPositive.shortest_of_whole (hx : x.IsPositive) (hunits : x.units = n * unitsInOne) (hn : n < 2 ^ 53) :
    0 ≤ x.shortest.exponent ∧ x.shortest.value = n := by
  have hone : (0 : ℚ) < unitsInOne := by exact_mod_cast unitsInOne_pos
  have hpos : 1 ≤ n := Nat.one_le_iff_ne_zero.2 fun h => by
    have := hx.units_pos
    rw [hunits, h, Nat.zero_mul] at this
    exact lt_irrefl 0 this
  obtain ⟨leading, hleading⟩ : ∃ k : ℕ, x.leadingExponent = k := by
    refine ⟨(Nat.toDigits 10 (x.units / unitsInOne)).length - 1, ?_⟩
    have hle : unitsInOne ≤ x.units := hunits ▸ Nat.le_mul_of_pos_left _ hpos
    rw [leadingExponent, if_pos hle, Nat.cast_sub Nat.length_toDigits_pos, Nat.cast_one]
  obtain ⟨m, hgrid, hcoarser⟩ := hx.shortest_cases
  have hm : m ≤ leading := by
    by_contra hlt
    refine (hx.onGrid?_spec _).2 (hcoarser leading (Nat.lt_of_not_le hlt)) n ?_
    have hself := nearest_units x
    rw [hleading, sub_self]
    rwa [Decimal.units, Decimal.value, zpow_zero, mul_one, ← Nat.cast_mul, ← hunits]
  obtain ⟨hexponent, hnearest, -⟩ := (hx.onGrid?_spec _).1 _ hgrid
  obtain ⟨j, hj⟩ := Nat.exists_eq_add_of_le hm
  have he : x.shortest.exponent = j := by
    rw [hexponent, hleading, hj]
    push_cast
    ring
  have hvalue : x.shortest.value = (x.shortest.digits * 10 ^ j : ℕ) := by
    rw [Decimal.value, he, zpow_natCast]
    push_cast
    rfl
  rw [Decimal.units, hvalue] at hnearest
  have hlt : x.units < 2 ^ 53 * unitsInOne := hunits ▸ Nat.mul_lt_mul_of_pos_right hn unitsInOne_pos
  have hsame := hnearest.units_eq (hnearest.lt_two_pow hlt)
  rw [hunits] at hsame
  refine ⟨he ▸ Int.natCast_nonneg j, ?_⟩
  rw [hvalue, Nat.eq_of_mul_eq_mul_right unitsInOne_pos hsame]

end Magnitude

/-! ### Texts of whole numbers -/

namespace Decimal
variable {d : Decimal} {n : ℕ}

/-- A decimal that is a whole number of moderate size is written as its digits. -/
theorem toText_of_whole (hcount : 0 < d.digitCount) (hexponent : 0 ≤ d.exponent) (hvalue : d.value = n)
    (hn : n < 10 ^ 21) : d.toText = toString n := by
  have hsignificant := significant_of_digitCount_pos hcount
  obtain ⟨j, hj⟩ : ∃ j : ℕ, d.significant.2 - d.significant.1.length = j := by
    refine Int.eq_ofNat_of_zero_le (sub_nonneg.2 ?_)
    have hle := length_trimZeros_le (Nat.toDigits 10 d.digits)
    simp only [significant]
    omega
  have hlow : d.significant.2 ≤ 21 := by
    have hle := hsignificant.pow_leading_le
    rw [hvalue, value, Nat.cast_one, one_mul] at hle
    have hlt : (10 : ℚ) ^ (d.significant.2 - 1) < 10 ^ (21 : ℤ) := hle.trans_lt (by exact_mod_cast hn)
    have := (zpow_lt_zpow_iff_right₀ (by norm_num)).1 hlt
    omega
  have htext : d.toText = String.ofList (d.significant.1 ++ List.replicate j '0') := by
    have hwhole : (d.significant.1.length : ℤ) ≤ d.significant.2 ∧ d.significant.2 ≤ 21 := ⟨by omega, hlow⟩
    rw [toText]
    dsimp only
    rw [if_pos hwhole, hj, Int.toNat_natCast]
  have hcanonical : Canonical (d.significant.1 ++ List.replicate j '0') :=
    { ne_nil := List.append_ne_nil_of_left_ne_nil hsignificant.ne_nil _
      digits := fun c hc => by
        rcases List.mem_append.1 hc with hc | hc
        · exact hsignificant.digits c hc
        · rw [List.eq_of_mem_replicate hc]
          rfl
      head := fun hzero => by
        rw [List.head?_append_of_ne_nil _ hsignificant.ne_nil] at hzero
        exact absurd hzero hsignificant.head }
  have hnatural : naturalOf (d.significant.1 ++ List.replicate j '0') = n := by
    rw [naturalOf_eq_valueIn hcanonical.digits, valueIn_append, valueIn_zeros, List.length_replicate, Nat.add_zero]
    rw [d.value_significant, hj, zpow_natCast] at hvalue
    exact_mod_cast hvalue
  rw [htext, ← String.toList_inj, String.toList_ofList, toList_toString, ← hnatural, toDigits_naturalOf hcanonical]

/-- A decimal whose text is nothing but digits is the number that they are. -/
theorem value_of_digits (hcount : 0 < d.digitCount) (hdigits : ∀ c ∈ d.toText.toList, c.isDigit = true) :
    d.value = naturalOf d.toText.toList := by
  have hlayout := layout_spec hcount
  rw [naturalOf_eq_valueIn hdigits, ← hlayout.value]
  rw [toList_toText, numeral] at hdigits ⊢
  cases hfraction : d.layout.2.1 with
  | some digits => exact absurd (hdigits '.' (by simp [hfraction, Numeral.text, Numeral.fractionText])) (by decide)
  | none =>
    cases hexponent : d.layout.2.2 with
    | some e =>
      have hmarker := hdigits e.marker (by simp [hexponent, Numeral.text, Numeral.exponentText, Exponent.text])
      rcases (hlayout.valid.2.1 e hexponent).marker with heq | heq <;> rw [heq] at hmarker <;> cases hmarker
    | none =>
      simp [Numeral.scaled, Numeral.text, Numeral.fractionText, Numeral.exponentText, Exponent.value, value]

end Decimal

namespace Number
variable {x : Number} {q : ℚ} {i : ℕ}

/-- The rational number that a finite number is, exactly. Both zeros are zero. -/
def toRat? : Number → Option ℚ
  | nan => none
  | signed negative m => if m.isInfinite then none else some ((signedUnits negative m : ℚ) / unitsInOne)

theorem toRat?_signed (negative : Bool) {m : Magnitude} (h : m.isInfinite = false) :
    (signed negative m).toRat? = some ((signedUnits negative m : ℚ) / unitsInOne) := by
  rw [toRat?, h, if_neg Bool.false_ne_true]

/-- A zero, or a sign before a magnitude that is neither zero nor infinite. -/
theorem toRat?_cases (h : x.toRat? = some q) :
    x.isZero = true ∧ q = 0 ∨ ∃ negative m, m.IsPositive ∧ x = signed negative m ∧
      q = (if negative then -1 else 1) * m.units / unitsInOne := by
  cases x with
  | nan => cases h
  | signed negative m =>
    by_cases hinfinite : m.isInfinite = true
    · rw [toRat?, if_pos hinfinite] at h
      cases h
    rw [toRat?_signed negative (Bool.eq_false_iff.2 hinfinite)] at h
    obtain rfl := Option.some.inj h
    by_cases hzero : m.isZero = true
    · refine .inl ⟨hzero, ?_⟩
      rw [signedUnits, isZero_iff.1 hzero]
      simp
    · refine .inr ⟨negative, m, ⟨Bool.eq_false_iff.2 hzero, Bool.eq_false_iff.2 hinfinite⟩, rfl, ?_⟩
      cases negative <;> simp [signedUnits]

/-- A whole number below two to the fifty-third is written as its digits. -/
theorem toText_of_toRat? (h : x.toRat? = some (i : ℚ)) (hi : i < 2 ^ 53) : x.toText = toString i := by
  have hone : (0 : ℚ) < unitsInOne := by exact_mod_cast unitsInOne_pos
  rcases toRat?_cases h with ⟨hzero, hi⟩ | ⟨negative, m, hm, rfl, hq⟩
  · obtain rfl : i = 0 := by exact_mod_cast hi
    rw [toText_of_isZero hzero]
    rfl
  · have hpos : (0 : ℚ) < m.units := by exact_mod_cast hm.units_pos
    rw [eq_div_iff hone.ne'] at hq
    cases negative with
    | true =>
      have hnonneg : (0 : ℚ) ≤ i * unitsInOne := by positivity
      rw [hq, if_pos rfl] at hnonneg
      linarith
    | false =>
      rw [if_neg Bool.false_ne_true, one_mul] at hq
      have hunits : m.units = i * unitsInOne := by exact_mod_cast hq.symm
      obtain ⟨hexponent, hvalue⟩ := hm.shortest_of_whole hunits hi
      have htext := Decimal.toText_of_whole (hm.digitCount_pos hm.isShortest.readsBack) hexponent hvalue
        (hi.trans (by norm_num))
      rw [toText, hm.1, hm.2]
      exact htext

/-- What is written as digits is a whole number, and not below zero. It is the one that the digits are if it is below
two to the fifty-third. -/
theorem toRat?_of_toText (h : x.toText = toString i) :
    ∃ n : ℕ, x.toRat? = some (n : ℚ) ∧ (n < 2 ^ 53 → n = i) := by
  have hone : (0 : ℚ) < unitsInOne := by exact_mod_cast unitsInOne_pos
  have hdigits : ∀ c ∈ x.toText.toList, c.isDigit = true := by
    rw [h, toList_toString]
    exact fun _ => Decimal.isDigit_of_mem_toDigits
  cases x with
  | nan => exact absurd (hdigits 'N' (by decide)) (by decide)
  | signed negative m =>
    by_cases hzero : m.isZero = true
    · have hfinite : m.isInfinite = false := by
        rw [eq_of_units (y := .zero) (isZero_iff.1 hzero)]
        decide
      refine ⟨0, ?_, fun _ => ?_⟩
      · rw [toRat?_signed negative hfinite, signedUnits, isZero_iff.1 hzero]
        simp
      · rw [toText_of_isZero (x := signed negative m) hzero] at h
        have hi := congrArg (fun s : String => Decimal.naturalOf s.toList) h
        rw [toList_toString, Decimal.naturalOf_toDigits] at hi
        exact hi
    by_cases hinfinite : m.isInfinite = true
    · obtain rfl : m = .infinite := eq_of_code (beq_iff_eq.1 hinfinite)
      exact absurd (hdigits 'I' (by cases negative <;> decide)) (by decide)
    have hm : m.IsPositive := ⟨Bool.eq_false_iff.2 hzero, Bool.eq_false_iff.2 hinfinite⟩
    have hcount := hm.digitCount_pos hm.isShortest.readsBack
    rw [toText, hm.1, hm.2, if_neg Bool.false_ne_true, if_neg Bool.false_ne_true] at h hdigits
    cases negative with
    | true => exact absurd (hdigits '-' (by simp)) (by decide)
    | false =>
      dsimp only at h hdigits
      rw [if_neg Bool.false_ne_true] at h hdigits
      have hvalue := Decimal.value_of_digits hcount hdigits
      rw [h, toList_toString, Decimal.naturalOf_toDigits] at hvalue
      have hnearest := hm.isShortest.readsBack
      rw [Decimal.units, hvalue] at hnearest
      rw [toRat?_signed false hm.2, signedUnits_false, Int.cast_natCast]
      by_cases hlt : m.units < 2 ^ 53 * unitsInOne
      · refine ⟨i, ?_, fun _ => rfl⟩
        rw [hnearest.units_eq (hnearest.lt_two_pow hlt), Nat.cast_mul, mul_div_cancel_right₀ _ hone.ne']
      · obtain ⟨n, hn⟩ := dvd_units_of_le (Nat.le_of_not_lt hlt)
        rw [Nat.mul_comm] at hn
        refine ⟨n, by rw [hn, Nat.cast_mul, mul_div_cancel_right₀ _ hone.ne'], fun hlow => absurd ?_ hlt⟩
        rw [hn]
        exact Nat.mul_lt_mul_of_pos_right hlow unitsInOne_pos

/-- The text of a number is none that a method or the length of an array is named by. -/
theorem toText_ne {s : String} (hs : Number.ofText s = nan) (hnan : s ≠ "NaN") : x.toText ≠ s := by
  rintro rfl
  rw [ofText_toText] at hs
  split at hs
  · cases hs
  · subst hs
    exact hnan rfl

theorem toRat?_ofNat {n : ℕ} (hn : n < 2 ^ 53) : (ofNat n).toRat? = some (n : ℚ) := by
  obtain ⟨m, heq, hunits, hfinite⟩ := ofNat_of_lt hn
  have hone : (unitsInOne : ℚ) ≠ 0 := by exact_mod_cast unitsInOne_pos.ne'
  rw [heq, toRat?_signed false hfinite, signedUnits_false, hunits, Int.cast_natCast, Nat.cast_mul,
    mul_div_cancel_right₀ _ hone]

/-- A number below two to the fifty-third names the index that it is. -/
theorem arrayIndex?_toText_iff (h : x.toRat? = some q) (hq : |q| < 2 ^ 53) :
    arrayIndex? x.toText = some i ↔ q = i := by
  rw [arrayIndex?_eq_some_iff]
  constructor
  · rintro ⟨-, htext⟩
    obtain ⟨n, hn, heq⟩ := toRat?_of_toText htext
    obtain rfl : q = n := Option.some.inj (h.symm.trans hn)
    rw [Nat.abs_cast] at hq
    rw [heq (by exact_mod_cast hq)]
  · rintro rfl
    rw [Nat.abs_cast] at hq
    have hi : i < 2 ^ 53 := by exact_mod_cast hq
    exact ⟨hi.le.trans (by decide), toText_of_toRat? h hi⟩

/-- A number that is negative or no whole one names no index. -/
theorem arrayIndex?_toText_eq_none (h : ∀ n : ℕ, x.toRat? ≠ some (n : ℚ)) : arrayIndex? x.toText = none := by
  refine Option.eq_none_iff_forall_ne_some.2 fun i hi => ?_
  obtain ⟨n, hn, -⟩ := toRat?_of_toText (arrayIndex?_eq_some_iff.1 hi).2
  exact h n hn

end Number

/-! ### Elements -/

namespace Heap
variable {h : Heap} {id : ℕ} {key : String} {i : ℕ}

theorem getProperty_element (hkey : arrayIndex? key = some i) :
    h.getProperty (.array id) key = .ok (((h.elements id)[i]?).getD .undefined) := by
  rw [getProperty, arrayProperty, hkey]

theorem setProperty_element (hkey : arrayIndex? key = some i) (value : Value) :
    h.setProperty (.array id) key value = h.setElement id i value := by
  rw [setProperty, hkey]

/-- A number that names no index names no other property of an array either. -/
theorem property_of_number {x : Number} (hkey : arrayIndex? x.toText = none) :
    h.getProperty (.array id) x.toText = .ok .undefined ∧
      ∀ value, h.setProperty (.array id) x.toText value = .error (.cannotSet x.toText .array) := by
  have hlength : x.toText ≠ "length" := Number.toText_ne (by decide) (by decide)
  have hmethod : ArrayMethod.ofName? x.toText = none := by
    refine List.find?_eq_none.2 fun m _ => ?_
    rw [decide_eq_true_iff]
    refine (Number.toText_ne ?_ ?_).symm
    · cases m <;> decide
    · cases m <;> decide
  constructor
  · rw [getProperty, arrayProperty, hkey]
    simp only [hlength, if_false, hmethod, Option.map_none, Option.getD_none]
  · intro value
    rw [setProperty, hkey]
    exact if_neg hlength

/-- A key names an index exactly if it is the decimal text of the index and the index is below two to the sixty-fourth;
reading its digits one by one finds out with a check at each step. A number below two to the fifty-third names an index
exactly if it is that index. So what a number and the text of it name is the same element, for reading as for writing,
and a number that is negative or no whole one names none. -/
theorem index_keys_canonical (h : Heap) :
    (∀ (key : String) (i : ℕ), (arrayIndex? key = some i ↔ key = toString i ∧ i < 2 ^ 64) ∧
      (key = toString i ↔ Decimal.Canonical key.toList ∧ Number.valueIn 10 key.toList = i)) ∧
    (∀ key : String, Decimal.Canonical key.toList → arrayIndex? key = checkedIndex? key.toList) ∧
    (∀ (x : Number) (q : ℚ), x.toRat? = some q → |q| < 2 ^ 53 →
      ∀ i : ℕ, arrayIndex? (h.propertyKey (.number x)) = some i ↔ q = i) ∧
    (∀ (x : Number) (i : ℕ), x.toRat? = some (i : ℚ) → i < 2 ^ 53 →
      ∀ key ∈ [h.propertyKey (.number x), h.propertyKey (.string (toString i))], ∀ (id : ℕ) (value : Value),
        h.getProperty (.array id) key = .ok (((h.elements id)[i]?).getD .undefined) ∧
          h.setProperty (.array id) key value = h.setElement id i value) ∧
    ∀ x : Number, (∀ n : ℕ, x.toRat? ≠ some (n : ℚ)) → ∀ (id : ℕ) (value : Value),
      arrayIndex? (h.propertyKey (.number x)) = none ∧
        h.getProperty (.array id) (h.propertyKey (.number x)) = .ok .undefined ∧
        h.setProperty (.array id) (h.propertyKey (.number x)) value =
          .error (.cannotSet (h.propertyKey (.number x)) .array) := by
  refine ⟨fun key i => ⟨?index, eq_toString_iff⟩, fun _ => arrayIndex?_eq_checkedIndex?,
    fun x q hx hq i => Number.arrayIndex?_toText_iff hx hq, ?element, ?other⟩
  case index =>
    have hmax : i ≤ maxIndex ↔ i < 2 ^ 64 := Nat.lt_succ_iff.symm
    rw [arrayIndex?_eq_some_iff, hmax, and_comm]
  case element =>
    intro x i hx hi key hkey id value
    have hnamed : key = toString i := by
      rcases List.mem_pair.1 hkey with rfl | rfl
      · exact Number.toText_of_toRat? hx hi
      · rfl
    have hindex : arrayIndex? key = some i := arrayIndex?_eq_some_iff.2 ⟨hi.le.trans (by decide), hnamed⟩
    exact ⟨getProperty_element hindex, setProperty_element hindex value⟩
  case other =>
    intro x hx id value
    have hnone := Number.arrayIndex?_toText_eq_none hx
    exact ⟨hnone, (property_of_number hnone).1, (property_of_number hnone).2 value⟩

/-- The largest index there is and the number after it; the largest number that names its own index; the zero with a
sign; and a number that is no whole one. -/
theorem index_keys_canonical_bounds :
    arrayIndex? "18446744073709551615" = some 18446744073709551615 ∧
      checkedIndex? "18446744073709551616".toList = none ∧
      arrayIndex? (empty.propertyKey (.number (.ofNat 9007199254740991))) = some 9007199254740991 ∧
      getProperty ⟨#[#[.null]], #[]⟩ (.array 0) (propertyKey ⟨#[#[.null]], #[]⟩ (.number (.signed true .zero))) =
        .ok .null ∧
      getProperty ⟨#[#[.null, .null]], #[]⟩ (.array 0)
        (propertyKey ⟨#[#[.null, .null]], #[]⟩ (.number (.ofText "1.5"))) = .ok .undefined := by
  obtain ⟨hkey, hchecked, hnumber, -⟩ := index_keys_canonical empty
  refine ⟨(hkey _ _).1.2 ⟨by decide, by decide⟩, ?_, ?_, ?_, ?_⟩
  · have hcanonical := ((hkey "18446744073709551616" 18446744073709551616).2.1 (by decide)).1
    rw [← hchecked _ hcanonical]
    refine Option.eq_none_iff_forall_ne_some.2 fun i hi => ?_
    obtain ⟨htext, hlt⟩ := (hkey _ _).1.1 hi
    have hvalue := ((hkey _ _).2.1 htext).2
    have hlarge : Number.valueIn 10 "18446744073709551616".toList = 18446744073709551616 := by decide
    omega
  · have hlarge : (9007199254740991 : ℕ) < 2 ^ 53 := by decide
    refine (hnumber _ _ (Number.toRat?_ofNat hlarge) ?_ _).2 rfl
    rw [Nat.abs_cast]
    exact_mod_cast hlarge
  · obtain ⟨-, -, -, helement, -⟩ := index_keys_canonical ⟨#[#[.null]], #[]⟩
    have hzero : (Number.signed true .zero).toRat? = some ((0 : ℕ) : ℚ) := by decide +kernel
    exact (helement _ 0 hzero (by decide) _ List.mem_cons_self 0 .null).1
  · obtain ⟨-, -, -, -, hother⟩ := index_keys_canonical ⟨#[#[.null, .null]], #[]⟩
    have hhalf : (Number.ofText "1.5").toRat? = some (3 / 2) := by decide +kernel
    refine (hother _ (fun n hn => ?_) 0 .null).2.1
    rw [hhalf] at hn
    have hdouble : (3 : ℚ) = n * 2 := (div_eq_iff two_ne_zero).1 (Option.some.inj hn)
    have : 3 = n * 2 := by exact_mod_cast hdouble
    omega

end Heap

end LatentExpr
