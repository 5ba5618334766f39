import LatentExpr.Proofs.Number.Digits
import LatentExpr.Scenario.Meaning
import LatentExpr.Value.Method

/-!
Places found in floating point. A program cuts a number to a whole one, adds the length of a sequence to it if
it is negative, and clamps the sum to zero or the length before it takes it for an index. As long as lengths are
exact, each of these steps is too, and the index is that of exact arithmetic (`indexInFloats_eq`).
-/
namespace LatentExpr

open Magnitude

attribute [local irreducible] Magnitude.unitsInOne

namespace Magnitude
variable {x : Magnitude}

theorem round_of_units {n : Nat} (h : x.units = n) : round n 1 = x := by
  refine (nearest_round n Nat.one_pos).eq_of_units ?_
  rw [h, Nat.cast_one, div_one]

theorem code_lt_infinite (h : x.isInfinite = false) : x.code < infinite.code :=
  lt_of_le_of_ne x.code_le (beq_eq_false_iff_ne.1 h)

theorem isInfinite_zero : zero.isInfinite = false := by decide

/-- What a finite magnitude is cut to is a magnitude: it is below two to the fifty-third, or there was nothing to
cut. -/
theorem exists_whole (h : x.isInfinite = false) :
    ∃ y : Magnitude, y.units = x.units / unitsInOne * unitsInOne ∧ y.isInfinite = false := by
  obtain ⟨one, hone⟩ : ∃ one, unitsInOne = 2 ^ one := ⟨1074, by decide +kernel⟩
  by_cases hshift : one ≤ x.shift
  · refine ⟨x, ?_, h⟩
    have hdvd : unitsInOne ∣ x.units := by
      rw [hone]
      exact Dvd.dvd.mul_left (pow_dvd_pow 2 hshift) _
    rw [Nat.div_mul_cancel hdvd]
  · have hlt : x.units / unitsInOne < 2 ^ 53 := by
      refine (Nat.div_lt_iff_lt_mul unitsInOne_pos).2 ?_
      have hsignificand := x.significand_lt
      rw [binade_eq] at hsignificand
      rw [hone]
      calc
        x.units = x.significand * 2 ^ x.shift := rfl
        _ < 2 ^ 53 * 2 ^ x.shift := Nat.mul_lt_mul_of_pos_right (by omega) (Nat.two_pow_pos _)
        _ ≤ 2 ^ 53 * 2 ^ one := Nat.mul_le_mul_left _ (Nat.pow_le_pow_right Nat.two_pos (by omega))
    obtain ⟨y, -, hunits, hfinite⟩ := Number.ofNat_of_lt hlt
    exact ⟨y, hunits, hfinite⟩

end Magnitude

namespace Number

/-! ### The operations -/

/-- Cut to a whole number, toward zero. -/
def trunc : Number → Number
  | nan => nan
  | signed negative m =>
    if m.isInfinite then signed negative m
    else signed negative (.round (m.units / unitsInOne * unitsInOne) 1)

/-- The smaller of two numbers, the other one if either is NaN. -/
def smaller (a b : Number) : Number := if a.isNaN then b else if b.below a then b else a

/-- A number taken for an index: cut, and never outside of what an index can be. NaN is zero. -/
def toIndex : Number → Nat
  | nan => 0
  | signed negative m =>
    if negative then 0
    else if m.isInfinite then Heap.maxIndex
    else min (m.units / unitsInOne) Heap.maxIndex

/-- A place in a sequence of `length` members, clamped before it is taken for an index. -/
def clampIndex (x : Number) (length : Nat) : Nat :=
  let x := if x.isNaN then zero else x.trunc
  let size := ofNat length
  (if x.below zero then (size.add x).larger zero else x.smaller size).toIndex

/-! ### What they come to -/

variable {x y m : Magnitude} {n : Nat}

theorem trunc_signed (negative : Bool) (h : m.isInfinite = false) :
    ∃ x : Magnitude, (signed negative m).trunc = signed negative x ∧
      x.units = m.units / unitsInOne * unitsInOne ∧ x.isInfinite = false := by
  obtain ⟨x, hunits, hfinite⟩ := exists_whole h
  refine ⟨x, ?_, hunits, hfinite⟩
  rw [trunc, h, if_neg Bool.false_ne_true, round_of_units hunits]

theorem toIndex_whole (hunits : x.units = n * unitsInOne) (hfinite : x.isInfinite = false) (hn : n < 2 ^ 53) :
    (signed false x).toIndex = n := by
  have hle : n ≤ Heap.maxIndex := hn.le.trans (by decide)
  rw [toIndex, if_neg Bool.false_ne_true, hfinite, if_neg Bool.false_ne_true, hunits,
    Nat.mul_div_cancel _ unitsInOne_pos, Nat.min_eq_left hle]

theorem toIndex_ofNat (hn : n < 2 ^ 53) : (ofNat n).toIndex = n := by
  obtain ⟨x, heq, hunits, hfinite⟩ := ofNat_of_lt hn
  rw [heq, toIndex_whole hunits hfinite hn]

/-- Numbers without a sign compare as their units do. -/
theorem below_signed_false : below (signed false x) (signed false y) = true ↔ x.units < y.units := by
  have hcode : below (signed false x) (signed false y) = true ↔ x.code < y.code := by
    simp [below, compare?, orderKey, compare_lt_iff_lt]
  rw [hcode]
  exact ⟨units_lt_units, fun h => Nat.lt_of_not_le fun hle => absurd h (units_le_units hle).not_gt⟩

theorem not_below_zero (negative : Bool) (h : negative = true → x.units = 0) :
    below (signed negative x) zero = false := by
  have hcode : below (signed negative x) zero = true ↔ orderKey negative x < 0 := by
    simp [below, compare?, compare_lt_iff_lt, zero, orderKey, Magnitude.zero]
  rw [Bool.eq_false_iff, ne_eq, hcode, not_lt]
  cases negative with
  | false => exact Int.natCast_nonneg _
  | true =>
    rw [eq_of_units (y := .zero) (h rfl)]
    exact Int.le_refl _

theorem not_below_zero_false (x : Magnitude) : below (signed false x) zero = false :=
  not_below_zero false fun h => absurd h Bool.false_ne_true

theorem below_zero (h : 0 < x.units) : below (signed true x) zero = true := by
  have hcode : below (signed true x) zero = true ↔ 0 < x.code := by
    simp [below, compare?, compare_lt_iff_lt, zero, orderKey, Magnitude.zero]
  rw [hcode]
  exact Nat.pos_of_ne_zero fun hzero => h.ne' (isZero_iff.1 (beq_iff_eq.2 hzero))

/-- What is negative is clamped to zero. -/
theorem toIndex_larger_zero (x : Magnitude) : ((signed true x).larger zero).toIndex = 0 := by
  have hzero : zero.toIndex = 0 := ofNat_zero ▸ toIndex_ofNat (Nat.two_pow_pos 53)
  rw [larger, isNaN, if_neg Bool.false_ne_true]
  split
  · exact hzero
  · rfl

/-- What is not negative is clamped to the length. -/
theorem toIndex_smaller {size : Magnitude} {q : Nat} (hunits : x.units = q * unitsInOne)
    (hfinite : x.isInfinite = false) (hsize : size.units = n * unitsInOne) (hsizeFinite : size.isInfinite = false)
    (hn : n < 2 ^ 53) : ((signed false x).smaller (signed false size)).toIndex = min q n := by
  rw [smaller, isNaN, if_neg Bool.false_ne_true]
  simp only [below_signed_false, hunits, hsize, Nat.mul_lt_mul_right unitsInOne_pos]
  split
  · rename_i hlt
    rw [toIndex_whole hsize hsizeFinite hn, Nat.min_eq_right hlt.le]
  · rename_i hle
    rw [toIndex_whole hunits hfinite (by omega), Nat.min_eq_left (by omega)]

/-- A number with a sign that is not clamped is no index but zero. -/
theorem toIndex_smaller_signed (x size : Magnitude) :
    ((signed true x).smaller (signed false size)).toIndex = 0 := by
  have hbelow : below (signed false size) (signed true x) = false := by
    have hcode : below (signed false size) (signed true x) = true ↔ (size.code : Int) < -x.code := by
      simp [below, compare?, compare_lt_iff_lt, orderKey]
    rw [Bool.eq_false_iff, ne_eq, hcode]
    omega
  rw [smaller, isNaN, if_neg Bool.false_ne_true, hbelow]
  rfl

/-- A negative number is counted from the end, no farther than to the start. -/
theorem toIndex_add {size : Magnitude} {q : Nat} (hq : 0 < q) (hunits : x.units = q * unitsInOne)
    (hfinite : x.isInfinite = false) (hsize : size.units = n * unitsInOne) (hsizeFinite : size.isInfinite = false)
    (hn : n < 2 ^ 53) : (((signed false size).add (signed true x)).larger zero).toIndex = n - q := by
  have hnonzero : x.isZero = false := by
    rw [Bool.eq_false_iff, ne_eq, isZero_iff, hunits]
    exact (Nat.mul_pos hq unitsInOne_pos).ne'
  have hsum : (signed false size).add (signed true x) = ofUnits ((n - q : Int) * unitsInOne) := by
    rw [add, hfinite, hsizeFinite, hnonzero, Bool.and_false]
    simp only [Bool.false_eq_true, if_false, signedUnits, hunits, hsize, if_true]
    congr 1
    push_cast
    ring
  rw [hsum, ofUnits]
  by_cases hle : q ≤ n
  · obtain ⟨k, rfl⟩ := Nat.exists_eq_add_of_le hle
    have hk : ((q + k : Nat) - q : Int) * unitsInOne = (k * unitsInOne : Nat) := by
      push_cast
      ring
    have hnat : signed (decide (((k * unitsInOne : Nat) : Int) < 0)) (.round ((k * unitsInOne : Nat) : Int).natAbs 1) =
        ofNat k := by
      rw [decide_eq_false (by omega), Int.natAbs_natCast, ofNat]
    rw [hk, hnat, Nat.add_sub_cancel_left]
    obtain ⟨y, heq, hyunits, hyfinite⟩ := ofNat_of_lt (n := k) (by omega)
    rw [heq, larger, isNaN, not_below_zero_false]
    exact toIndex_whole hyunits hyfinite (by omega)
  · have hneg : ((n : Int) - q) * unitsInOne < 0 :=
      mul_neg_of_neg_of_pos (by omega) (by exact_mod_cast unitsInOne_pos)
    rw [decide_eq_true hneg, toIndex_larger_zero, Nat.sub_eq_zero_of_le (by omega)]

/-- The clamped place of a number, in exact arithmetic. -/
def clamped (n : Nat) : Number → Nat
  | nan => 0
  | signed negative m =>
    let distance := if m.isInfinite then n else m.units / unitsInOne
    if negative ∧ 0 < distance then n - distance else min distance n

/-- Floating point finds the exact place, as long as lengths are exact there. -/
theorem clampIndex_eq (hn : n < 2 ^ 53) (v : Number) : v.clampIndex n = v.clamped n := by
  obtain ⟨size, hsize, hsizeUnits, hsizeFinite⟩ := ofNat_of_lt hn
  have hzero : (zero.smaller (signed false size)).toIndex = 0 :=
    (toIndex_smaller (by rw [Nat.zero_mul]; rfl) isInfinite_zero hsizeUnits hsizeFinite hn).trans (Nat.zero_min n)
  simp only [clampIndex, clamped, hsize]
  cases v with
  | nan => exact hzero
  | signed negative m =>
    simp only [isNaN, Bool.false_eq_true, if_false]
    by_cases hinfinite : m.isInfinite = true
    · have hpos : 0 < m.units := by
        obtain rfl : m = .infinite := eq_of_code (beq_iff_eq.1 hinfinite)
        exact Nat.pos_of_ne_zero fun h => absurd (isZero_iff.2 h) (by decide)
      rw [trunc, if_pos hinfinite, if_pos hinfinite]
      cases negative with
      | false =>
        have hbeyond : below (signed false size) (signed false m) = true := by
          obtain rfl : m = .infinite := eq_of_code (beq_iff_eq.1 hinfinite)
          exact below_signed_false.2 (units_lt_units (code_lt_infinite hsizeFinite))
        rw [not_below_zero_false, if_neg Bool.false_ne_true, if_neg (by simp), smaller, isNaN,
          if_neg Bool.false_ne_true, hbeyond, if_pos rfl, toIndex_whole hsizeUnits hsizeFinite hn, Nat.min_self]
      | true =>
        rw [below_zero hpos, if_pos rfl, add, hsizeFinite, if_neg Bool.false_ne_true, if_pos hinfinite,
          toIndex_larger_zero, Nat.sub_self, Nat.min_self]
        split
        · rfl
        · rename_i hnone
          exact (Nat.eq_zero_of_not_pos fun h => hnone ⟨rfl, h⟩).symm
    · obtain ⟨x, htrunc, hunits, hfinite⟩ := trunc_signed negative (Bool.eq_false_iff.2 hinfinite)
      rw [htrunc, if_neg hinfinite]
      cases negative with
      | false =>
        rw [not_below_zero_false, if_neg Bool.false_ne_true, if_neg (by simp),
          toIndex_smaller hunits hfinite hsizeUnits hsizeFinite hn]
      | true =>
        by_cases hpos : 0 < m.units / unitsInOne
        · rw [below_zero (hunits ▸ Nat.mul_pos hpos unitsInOne_pos), if_pos rfl, if_pos ⟨rfl, hpos⟩,
            toIndex_add hpos hunits hfinite hsizeUnits hsizeFinite hn]
        · have hnone : x.units = 0 := by rw [hunits, Nat.eq_zero_of_not_pos hpos, Nat.zero_mul]
          rw [not_below_zero true fun _ => hnone, if_neg Bool.false_ne_true, if_neg fun h => hpos h.2,
            toIndex_smaller_signed, Nat.eq_zero_of_not_pos hpos, Nat.zero_min]

end Number

/-! ### Places -/

/-- The place that an argument names in a sequence of `length` members, found in floating point. -/
def indexInFloats (h : Heap) (value : Value) (length default : Nat) : Nat :=
  match value with
  | .undefined => default
  | value => (h.toNumber value).clampIndex length

theorem relativeIndex_of_defined (h : Heap) {value : Value} (hdefined : value ≠ .undefined)
    (length default : Nat) : relativeIndex h value length default = (h.toNumber value).clamped length := by
  cases value with
  | undefined => exact absurd rfl hdefined
  | _ => rfl

theorem indexInFloats_eq (h : Heap) (value : Value) {length : Nat} (hlength : length < 2 ^ 53) (default : Nat) :
    indexInFloats h value length default = relativeIndex h value length default := by
  by_cases hdefined : value = .undefined
  · rw [hdefined]
    rfl
  · rw [relativeIndex_of_defined h hdefined, ← Number.clampIndex_eq hlength]
    cases value with
    | undefined => exact absurd rfl hdefined
    | _ => rfl

end LatentExpr
