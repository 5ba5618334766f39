import LatentExpr.Proofs.Number.Layout
import LatentExpr.Value.Property

/-!
Index keys. The decimal digits of a number begin with a zero in the text of zero alone, and digits that do not are
the text of the number that they are. So a key names an index exactly if it is the text of that index
(`arrayIndex?_eq_some_iff`).
-/
namespace LatentExpr

namespace Decimal

/-- Digits without zeros before them. -/
structure Canonical (text : List Char) : Prop where
  ne_nil : text ≠ []
  digits : ∀ c ∈ text, c.isDigit = true
  head : text.head? = some '0' → text.length ≤ 1

theorem digitChar_digitValue {c : Char} (h : c.isDigit = true) :
    Nat.digitChar (digitValue c) = c ∧ digitValue c < 10 := by
  rw [Char.isDigit, Bool.and_eq_true, decide_eq_true_eq, decide_eq_true_eq] at h
  have hge : 48 ≤ c.toNat := UInt32.le_iff_toNat_le.1 h.1
  have hle : c.toNat ≤ 57 := UInt32.le_iff_toNat_le.1 h.2
  have hlt : c.toNat - 48 < 10 := by omega
  refine ⟨Char.toNat_inj.1 ?_, hlt⟩
  show (Nat.digitChar (c.toNat - 48)).toNat = c.toNat
  rw [Nat.toNat_digitChar_of_lt_ten hlt, Nat.add_sub_cancel' hge]

theorem canonical_toDigits (n : Nat) : Canonical (Nat.toDigits 10 n) where
  ne_nil := List.length_pos_iff.1 Nat.length_toDigits_pos
  digits _ := isDigit_of_mem_toDigits
  head hhead := by
    rcases Nat.eq_zero_or_pos n with rfl | hpos
    · decide
    · exact absurd hhead (head?_toDigits hpos)

theorem naturalOf_concat (digits : List Char) (c : Char) :
    naturalOf (digits ++ [c]) = 10 * naturalOf digits + digitValue c := by
  rw [naturalOf_eq_foldl, naturalOf_eq_foldl, List.foldl_concat, Nat.mul_comm]

/-- Digits without zeros before them are those of the number that they are. -/
theorem toDigits_naturalOf {digits : List Char} (h : Canonical digits) :
    Nat.toDigits 10 (naturalOf digits) = digits := by
  induction digits using List.reverseRecOn with
  | nil => exact absurd rfl h.ne_nil
  | append_singleton front c ih =>
    obtain ⟨hc, hlt⟩ := digitChar_digitValue (h.digits c (by simp))
    rw [naturalOf_concat]
    cases front with
    | nil =>
      have hnil : naturalOf [] = 0 := rfl
      rw [hnil, Nat.mul_zero, Nat.zero_add, Nat.toDigits_of_lt_base hlt, hc, List.nil_append]
    | cons d front =>
      -- what does not begin with a zero is not zero, so there are digits before the last one
      have hfirst : (d :: front).head? ≠ some '0' := fun hzero => by
        have hlength := h.head hzero
        rw [List.length_append, List.length_cons, List.length_singleton] at hlength
        omega
      have hfront := ih
        { ne_nil := List.cons_ne_nil _ _
          digits := fun x hx => h.digits x (List.mem_append_left _ hx)
          head := fun hzero => absurd hzero hfirst }
      have hpos : 0 < naturalOf (d :: front) := Nat.pos_of_ne_zero fun hzero => by
        rw [hzero] at hfront
        exact hfirst (hfront ▸ rfl)
      rw [← Nat.toDigits_append_toDigits (by decide) hpos hlt, hfront, Nat.toDigits_of_lt_base hlt, hc]

end Decimal

theorem toList_toString (n : Nat) : (toString n).toList = Nat.toDigits 10 n := by
  rw [Nat.toString_eq_repr, Nat.toList_repr]

/-- A key names an index exactly if it is the decimal text of the index, and no index is too large for one. -/
theorem arrayIndex?_eq_some_iff {key : String} {index : Nat} :
    arrayIndex? key = some index ↔ index ≤ Heap.maxIndex ∧ key = toString index := by
  constructor
  · intro h
    unfold arrayIndex? at h
    dsimp only at h
    split_ifs at h with hdigits hzero hle
    obtain rfl := Option.some.inj h
    rw [Bool.or_eq_true, not_or, List.isEmpty_iff, Bool.not_eq_true', Bool.not_eq_false, List.all_eq_true] at hdigits
    rw [not_and, Nat.not_lt] at hzero
    refine ⟨hle, String.toList_inj.1 ?_⟩
    rw [toList_toString, Decimal.toDigits_naturalOf ⟨hdigits.1, hdigits.2, hzero⟩]
  · rintro ⟨hle, rfl⟩
    obtain ⟨hne, hdigits, hhead⟩ := Decimal.canonical_toDigits index
    have hempty : (Nat.toDigits 10 index).isEmpty = false := by rwa [List.isEmpty_eq_false_iff]
    have hall : (Nat.toDigits 10 index).all Char.isDigit = true := List.all_eq_true.2 hdigits
    simp only [arrayIndex?, toList_toString, hempty, hall, Bool.not_true, Bool.or_self, Bool.false_eq_true, if_false]
    rw [if_neg, Decimal.naturalOf_toDigits, if_pos hle]
    rintro ⟨hzero, hlength⟩
    exact absurd hlength (Nat.not_lt.2 (hhead hzero))

/-- A text is the decimal text of a number exactly if it is digits without zeros before them and they are the number. -/
theorem eq_toString_iff {key : String} {n : Nat} :
    key = toString n ↔ Decimal.Canonical key.toList ∧ Number.valueIn 10 key.toList = n := by
  constructor
  · rintro rfl
    rw [toList_toString]
    exact ⟨Decimal.canonical_toDigits n, Decimal.valueIn_toDigits n⟩
  · rintro ⟨hcanonical, rfl⟩
    rw [← String.toList_inj, toList_toString, ← Decimal.naturalOf_eq_valueIn hcanonical.digits,
      Decimal.toDigits_naturalOf hcanonical]

/-! ### Overflow -/

/-- A number that an index can be. -/
def fitIndex? (n : Nat) : Option Nat := if n ≤ Heap.maxIndex then some n else none

/-- Digits read one by one, each step of which is checked for overflow. -/
def checkedIndex? (digits : List Char) : Option Nat :=
  digits.foldlM (fun n c => do fitIndex? ((← fitIndex? (n * 10)) + Decimal.digitValue c)) 0

theorem le_foldl_digits (digits : List Char) (n : Nat) :
    n ≤ digits.foldl (fun n c => n * 10 + Decimal.digitValue c) n := by
  induction digits generalizing n with
  | nil => exact Nat.le_refl n
  | cons c digits ih => exact Nat.le_trans (by omega) (ih (n * 10 + Decimal.digitValue c))

/-- A step overflows exactly if the number of all the digits is too large. -/
theorem checkedIndex?_eq (digits : List Char) : checkedIndex? digits = fitIndex? (Decimal.naturalOf digits) := by
  have hgeneral : ∀ n ≤ Heap.maxIndex,
      digits.foldlM (fun n c => do fitIndex? ((← fitIndex? (n * 10)) + Decimal.digitValue c)) n =
        fitIndex? (digits.foldl (fun n c => n * 10 + Decimal.digitValue c) n) := by
    induction digits with
    | nil =>
      intro n hn
      rw [List.foldlM_nil, List.foldl_nil, fitIndex?, if_pos hn]
      rfl
    | cons c digits ih =>
      intro n hn
      rw [List.foldlM_cons, List.foldl_cons]
      have hgrows := le_foldl_digits digits (n * 10 + Decimal.digitValue c)
      have hover (h : ¬ n * 10 + Decimal.digitValue c ≤ Heap.maxIndex) :
          fitIndex? (digits.foldl (fun n c => n * 10 + Decimal.digitValue c) (n * 10 + Decimal.digitValue c)) = none :=
        if_neg fun hle => h (hgrows.trans hle)
      by_cases htimes : n * 10 ≤ Heap.maxIndex
      · by_cases hplus : n * 10 + Decimal.digitValue c ≤ Heap.maxIndex
        · rw [← ih _ hplus]
          simp [fitIndex?, htimes, hplus]
        · rw [hover hplus]
          simp [fitIndex?, htimes, hplus]
      · rw [hover fun hle => htimes (Nat.le_of_add_right_le hle)]
        simp [fitIndex?, htimes]
  rw [Decimal.naturalOf_eq_foldl]
  exact hgeneral 0 (Nat.zero_le _)

theorem arrayIndex?_eq_checkedIndex? {key : String} (h : Decimal.Canonical key.toList) :
    arrayIndex? key = checkedIndex? key.toList := by
  have hempty : key.toList.isEmpty = false := List.isEmpty_eq_false_iff.2 h.ne_nil
  have hall : key.toList.all Char.isDigit = true := List.all_eq_true.2 h.digits
  have hzero : ¬ (key.toList.head? = some '0' ∧ 1 < key.toList.length) := fun hzero =>
    absurd (h.head hzero.1) (Nat.not_le_of_lt hzero.2)
  rw [checkedIndex?_eq, arrayIndex?]
  dsimp only
  rw [hempty, hall, Bool.not_true, Bool.or_self, if_neg Bool.false_ne_true, if_neg hzero, fitIndex?]

end LatentExpr
