import LatentExpr.Proofs.Number.Shortest
import LatentExpr.Proofs.Token.Numerals

/-!
How decimals are written. The significant digits of a decimal are laid out in one of four ways: with zeros behind them,
with a point among them, with zeros before them, or with an exponent behind them. Each of the four is a `Numeral` that
is that decimal exactly (`Decimal.layout_spec`).
-/
namespace LatentExpr

namespace Decimal

/-- The exponent of the first significant digit. -/
def leading (d : Decimal) : ℤ := d.significant.2 - 1

/-- An exponent of ten with its sign written out. -/
def exponentSigned (e : ℤ) : Exponent := ⟨'e', [if e < 0 then '-' else '+'], Nat.toDigits 10 e.natAbs⟩

/-- How a decimal is written: digits, digits behind a point, and an exponent. -/
def layout (d : Decimal) : List Char × Option (List Char) × Option Exponent :=
  let (digits, n) := d.significant
  let k : Int := digits.length
  if k ≤ n ∧ n ≤ 21 then (digits ++ List.replicate (n - k).toNat '0', none, none)
  else if 0 < n ∧ n ≤ 21 then (digits.take n.toNat, some (digits.drop n.toNat), none)
  else if -6 < n ∧ n ≤ 0 then (['0'], some (List.replicate (-n).toNat '0' ++ digits), none)
  else (digits.take 1, if k ≤ 1 then none else some (digits.drop 1), some (exponentSigned (n - 1)))

def numeral (d : Decimal) : Numeral := .decimal d.layout.1 d.layout.2.1 d.layout.2.2

theorem toList_toText (d : Decimal) : d.toText.toList = d.numeral.text := by
  unfold toText numeral layout
  dsimp only
  split_ifs <;> simp only [Numeral.text, Numeral.fractionText, Numeral.exponentText, Exponent.text, exponentSigned,
    String.toList_ofList, List.append_nil, List.append_assoc, List.cons_append, List.nil_append, *, if_true, if_false]

/-! ### Significant digits -/

theorem head?_toDigits {n : ℕ} (hn : 0 < n) : (Nat.toDigits 10 n).head? ≠ some '0' := by
  induction n using Nat.strong_induction_on with
  | _ n ih =>
    rcases Nat.lt_or_ge n 10 with hlt | hge
    · rw [Nat.toDigits_of_lt_base hlt, List.head?_cons]
      interval_cases n <;> decide
    · have hdiv := ih (n / 10) (Nat.div_lt_self hn (by decide)) (Nat.div_pos hge (by decide))
      rw [Nat.toDigits_of_base_le (by decide) hge, List.head?_append]
      obtain ⟨c, rest, hdigits⟩ := List.exists_cons_of_ne_nil
        (List.length_pos_iff.1 (Nat.length_toDigits_pos (b := 10) (n := n / 10)))
      rw [hdigits] at hdiv ⊢
      exact hdiv

theorem getLast?_trimZeros (digits : List Char) : (trimZeros digits).getLast? ≠ some '0' := by
  rw [trimZeros, List.getLast?_reverse]
  intro hlast
  have := List.head?_dropWhile_not (· == '0') digits.reverse
  rw [hlast] at this
  cases this

/-- The significant digits of a decimal that is not zero: neither the first nor the last one is a zero. -/
structure Significant (text : List Char) : Prop where
  ne_nil : text ≠ []
  digits : ∀ c ∈ text, c.isDigit = true
  head : text.head? ≠ some '0'
  last : text.getLast? ≠ some '0'

theorem significant_of_digitCount_pos {d : Decimal} (h : 0 < d.digitCount) : Significant d.significant.1 := by
  have hne : d.significant.1 ≠ [] := List.length_pos_iff.1 h
  refine ⟨hne, fun _ => isDigit_of_mem_significant, ?_, getLast?_trimZeros _⟩
  have hpos : 0 < d.digits := by
    refine Nat.pos_of_ne_zero fun hzero => ?_
    rw [significant, hzero] at hne
    exact hne rfl
  obtain ⟨n, hn⟩ := exists_zeros (Nat.toDigits 10 d.digits)
  have hhead := head?_toDigits hpos
  rw [hn, List.head?_append] at hhead
  intro hzero
  have : (trimZeros (Nat.toDigits 10 d.digits)).head? = some '0' := hzero
  rw [this] at hhead
  exact hhead rfl

namespace Significant
variable {digits : List Char}

theorem pow_le_valueIn (h : Significant digits) : 10 ^ (digits.length - 1) ≤ Number.valueIn 10 digits := by
  obtain ⟨c, rest, rfl⟩ := List.exists_cons_of_ne_nil h.ne_nil
  have hfirst : 1 ≤ Number.valueIn 10 [c] := by
    refine Nat.one_le_iff_ne_zero.2 fun hzero => h.head ?_
    have hdigit := h.digits c List.mem_cons_self
    simp only [Number.valueIn, List.reverse_singleton, List.map_cons, List.map_nil, Nat.ofDigits_singleton,
      Number.digitValue, hdigit, if_true] at hzero
    rw [Char.isDigit, Bool.and_eq_true, decide_eq_true_eq, decide_eq_true_eq] at hdigit
    have hge : 48 ≤ c.toNat := UInt32.le_iff_toNat_le.1 hdigit.1
    have hchar : c = '0' := Char.ext (UInt32.toNat_inj.1 (show c.toNat = 48 by
      have hzero' : '0'.toNat = 48 := rfl
      omega))
    rw [hchar, List.head?_cons]
  rw [← List.singleton_append, valueIn_append]
  simp only [List.length_append, List.length_singleton, Nat.add_sub_cancel_left]
  exact (Nat.le_mul_of_pos_left _ hfirst).trans (Nat.le_add_right _ _)

/-- A decimal is at least the power of ten at its first significant digit. -/
theorem pow_leading_le {d : Decimal} (h : Significant d.significant.1) :
    (⟨1, d.significant.2 - 1⟩ : Decimal).value ≤ d.value := by
  obtain ⟨k, hk⟩ := Nat.exists_eq_succ_of_ne_zero (List.length_pos_iff.2 h.ne_nil).ne'
  have hpow : (10 : ℚ) ^ k ≤ Number.valueIn 10 d.significant.1 := by
    have := h.pow_le_valueIn
    rw [hk, Nat.succ_sub_one] at this
    exact_mod_cast this
  have hsplit : (10 : ℚ) ^ (d.significant.2 - 1) = 10 ^ k * 10 ^ (d.significant.2 - (k.succ : ℕ)) := by
    rw [← zpow_natCast, ← zpow_add₀ (by norm_num)]
    congr 1
    push_cast
    ring
  rw [d.value_significant, value, Nat.cast_one, one_mul, hsplit, hk]
  gcongr

end Significant

/-! ### What a layout is -/

theorem value_exponentSigned (e : ℤ) : Exponent.value (some (exponentSigned e)) = e := by
  have hsize : Number.valueIn 10 (exponentSigned e).digits = e.natAbs := valueIn_toDigits _
  rw [Exponent.value, hsize, Exponent.signed, exponentSigned]
  by_cases h : e < 0
  · rw [if_pos h, if_pos rfl]
    omega
  · rw [if_neg h, if_neg (show ¬ ['+'] = ['-'] by decide)]
    omega

theorem valid_exponentSigned (e : ℤ) : (exponentSigned e).Valid := by
  refine ⟨.inl rfl, ?_, fun _ => isDigit_of_mem_toDigits⟩
  by_cases h : e < 0
  · exact .inr (.inr (congrArg (fun c => [c]) (if_pos h)))
  · exact .inr (.inl (congrArg (fun c => [c]) (if_neg h)))

/-- What the layout of a decimal owes to it. -/
structure IsLayout (d : Decimal) (whole : List Char) (fraction : Option (List Char)) (exponent : Option Exponent) :
    Prop where
  valid : (Numeral.decimal whole fraction exponent).Valid
  /-- There are digits behind the marker of the exponent. -/
  full : ¬ (Numeral.decimal whole fraction exponent).Bare
  /-- It is the decimal exactly. -/
  value : (Numeral.scaled whole fraction (Exponent.value exponent)).value = d.value
  positional : -7 < d.leading ∧ d.leading < 21 → exponent = none
  /-- One digit stands before the point, and the exponent is that of this digit. -/
  scientific : ¬ (-7 < d.leading ∧ d.leading < 21) →
    whole ++ fraction.getD [] = d.significant.1 ∧ whole.length = 1 ∧ exponent = some (exponentSigned d.leading)

section
variable {d : Decimal} {whole : List Char} {fraction : Option (List Char)}

/-- Digits without an exponent are a layout if they are worth the decimal. -/
theorem isLayout_positional (hn : -6 < d.significant.2 ∧ d.significant.2 ≤ 21)
    (hdigits : ∀ c ∈ whole ++ fraction.getD [], c.isDigit = true) (hne : whole ++ fraction.getD [] ≠ [])
    (hzero : whole = ['0'] ∨ whole.head? ≠ some '0')
    (hvalue : (Numeral.scaled whole fraction 0).value = d.value) : d.IsLayout whole fraction none := by
  refine ⟨⟨hdigits, nofun, hne, ?_⟩, ?_, hvalue, fun _ => rfl, fun h => ?_⟩
  · rintro c more rfl
    rcases hzero with hzero | hzero
    · cases hzero
    · exact absurd rfl hzero
  · rintro ⟨e, he, -⟩
    cases he
  · unfold leading at h
    omega

/-- One digit before the point and the exponent of that digit. -/
theorem isLayout_scientific (hn : ¬ (-6 < d.significant.2 ∧ d.significant.2 ≤ 21))
    (hsplit : whole ++ fraction.getD [] = d.significant.1) (hwhole : whole.length = 1) :
    d.IsLayout whole fraction (some (exponentSigned d.leading)) := by
  have hdigits : ∀ c ∈ whole ++ fraction.getD [], c.isDigit = true := fun c hc =>
    isDigit_of_mem_significant (hsplit ▸ hc)
  obtain ⟨first, rfl⟩ := List.length_eq_one_iff.1 hwhole
  have hlength := congrArg List.length hsplit
  rw [List.length_append] at hlength
  refine ⟨⟨hdigits, ?_, List.cons_ne_nil _ _, nofun⟩, ?_, ?_, fun h => ?_, fun _ => ⟨hsplit, rfl, rfl⟩⟩
  · rintro e ⟨⟩
    exact valid_exponentSigned _
  · rintro ⟨e, ⟨⟩, hnone⟩
    exact absurd hnone (List.length_pos_iff.1 Nat.length_toDigits_pos)
  · rw [value_exponentSigned, d.value_significant, Numeral.scaled, value, hsplit]
    congr 2
    rw [List.length_singleton] at hlength
    dsimp only [leading]
    omega
  · unfold leading at h
    omega

/-- Zeros behind the digits. -/
theorem isLayout_whole (hsignificant : Significant d.significant.1) {j : ℕ}
    (hj : d.significant.2 - d.significant.1.length = j) (hn : d.significant.2 ≤ 21) :
    d.IsLayout (d.significant.1 ++ List.replicate j '0') none none := by
  have hlength : 0 < d.significant.1.length := List.length_pos_iff.2 hsignificant.ne_nil
  refine isLayout_positional ⟨by omega, hn⟩ ?_ ?_ (.inr ?_) ?_
  · intro c hc
    rw [Option.getD_none, List.append_nil, List.mem_append] at hc
    rcases hc with hc | hc
    · exact hsignificant.digits c hc
    · rw [(List.mem_replicate.1 hc).2]
      rfl
  · simp [hsignificant.ne_nil]
  · rw [List.head?_append_of_ne_nil _ hsignificant.ne_nil]
    exact hsignificant.head
  · rw [d.value_significant, hj, Numeral.scaled, value, Option.getD_none, List.append_nil, valueIn_append, valueIn_zeros,
      List.length_replicate, List.length_nil, zpow_natCast]
    push_cast
    ring

/-- A point among the digits. -/
theorem isLayout_pointed (hsignificant : Significant d.significant.1) {j : ℕ} (hj : d.significant.2 = j)
    (hn : 0 < d.significant.2 ∧ d.significant.2 ≤ 21) (hlength : d.significant.2 < d.significant.1.length) :
    d.IsLayout (d.significant.1.take j) (some (d.significant.1.drop j)) none := by
  refine isLayout_positional ⟨by omega, hn.2⟩ ?_ ?_ (.inr ?_) ?_
  · rw [Option.getD_some, List.take_append_drop]
    exact hsignificant.digits
  · rw [Option.getD_some, List.take_append_drop]
    exact hsignificant.ne_nil
  · rw [List.head?_take, if_neg (by omega)]
    exact hsignificant.head
  · rw [d.value_significant, Numeral.scaled, value, Option.getD_some, List.take_append_drop, List.length_drop]
    congr 2
    dsimp only
    omega

/-- Zeros before the digits, behind the point. -/
theorem isLayout_small (hsignificant : Significant d.significant.1) {j : ℕ} (hj : -d.significant.2 = j)
    (hn : -6 < d.significant.2) : d.IsLayout ['0'] (some (List.replicate j '0' ++ d.significant.1)) none := by
  refine isLayout_positional ⟨hn, by omega⟩ ?_ (List.cons_ne_nil _ _) (.inl rfl) ?_
  · intro c hc
    simp only [Option.getD_some, List.singleton_append, List.mem_cons, List.mem_append, List.mem_replicate] at hc
    rcases hc with rfl | ⟨-, rfl⟩ | hc
    · rfl
    · rfl
    · exact hsignificant.digits c hc
  · have hzeros : ['0'] ++ (List.replicate j '0' ++ d.significant.1) =
        List.replicate (j + 1) '0' ++ d.significant.1 := by
      rw [List.replicate_succ]
      rfl
    rw [d.value_significant, Numeral.scaled, value, Option.getD_some, hzeros, valueIn_append, valueIn_zeros,
      Nat.zero_mul, Nat.zero_add, List.length_append, List.length_replicate]
    congr 2
    dsimp only
    omega

end

theorem layout_spec {d : Decimal} (hpos : 0 < d.digitCount) : d.IsLayout d.layout.1 d.layout.2.1 d.layout.2.2 := by
  have hsignificant := significant_of_digitCount_pos hpos
  have hlength : 0 < d.significant.1.length := hpos
  unfold layout
  dsimp only
  split_ifs with hwhole hpoint hzeros hshort
  · exact isLayout_whole hsignificant (Int.toNat_of_nonneg (by omega)).symm hwhole.2
  · exact isLayout_pointed hsignificant (Int.toNat_of_nonneg (by omega)).symm hpoint (by omega)
  · exact isLayout_small hsignificant (Int.toNat_of_nonneg (by omega)).symm hzeros.1
  · refine isLayout_scientific (by omega) ?_ ?_
    · rw [Option.getD_none, List.append_nil, List.take_of_length_le (by omega)]
    · rw [List.length_take]
      omega
  · refine isLayout_scientific (by omega) ?_ ?_
    · rw [Option.getD_some, List.take_append_drop]
    · rw [List.length_take]
      omega

end Decimal

end LatentExpr
