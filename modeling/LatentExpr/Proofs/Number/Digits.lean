import LatentExpr.Proofs.Number.Nearest
import LatentExpr.Text.CharClass

/-!
Digits in a radix. They are read one by one, with a rounding at each step. As long as their value is a whole number
below two to the fifty-third, every step is exact; beyond that their number is still not NaN.
-/
namespace LatentExpr

namespace Magnitude

theorem isInfinite_eq_false {x : Magnitude} (h : x.code < 2047 * binade) : x.isInfinite = false :=
  beq_false_of_ne h.ne

theorem isZero_iff {x : Magnitude} : x.isZero = true ↔ x.units = 0 := by
  rw [isZero, beq_iff_eq]
  constructor
  · intro h
    rw [units, significand, h, if_pos (by decide), Nat.zero_mul]
  · intro h
    rw [eq_of_units (y := zero) h]
    rfl

/-- Every significand has a magnitude at every shift. -/
theorem exists_units {n shift : Nat} (hn : n < 2 * binade) (hshift : shift ≤ 2045) :
    ∃ x : Magnitude, x.units = n * 2 ^ shift ∧ x.isInfinite = false := by
  induction shift generalizing n with
  | zero =>
    have hcode : n < 2047 * binade := by
      rw [binade_eq] at *
      omega
    refine ⟨⟨n, hcode.le⟩, units_of_code hn.le (.inl rfl) ?_, isInfinite_eq_false hcode⟩
    rw [Nat.zero_mul, Nat.zero_add]
  | succ shift ih =>
    by_cases hnormal : binade ≤ n
    · have hcode : (shift + 1) * binade + n < 2047 * binade := by
        rw [binade_eq] at *
        omega
      exact ⟨⟨_, hcode.le⟩, units_of_code hn.le (.inr hnormal) rfl, isInfinite_eq_false hcode⟩
    · obtain ⟨x, hunits, hfinite⟩ := ih (n := 2 * n) (by omega) (by omega)
      refine ⟨x, ?_, hfinite⟩
      rw [hunits]
      ring

/-- A quotient is rounded alike in whatever terms it is given. -/
theorem round_congr {num den num' den' : Nat} (hden : 0 < den) (hden' : 0 < den') (h : num * den' = num' * den) :
    round num den = round num' den' := by
  have hsame : (num : ℚ) / den = num' / den' := by
    rw [div_eq_div_iff (by exact_mod_cast hden.ne') (by exact_mod_cast hden'.ne')]
    exact_mod_cast h
  have hnearest := nearest_round num hden
  rw [hsame] at hnearest
  exact (nearest_round num' hden').unique hnearest

end Magnitude

namespace Number

open Magnitude

theorem ofNat_zero : ofNat 0 = zero := by
  rw [ofNat, Nat.zero_mul]
  rfl

/-- A whole number below two to the fifty-third has a magnitude of its own. -/
theorem ofNat_of_lt {n : Nat} (h : n < 2 ^ 53) :
    ∃ x : Magnitude, ofNat n = .signed false x ∧ x.units = n * unitsInOne ∧ x.isInfinite = false := by
  obtain ⟨shift, hshift, hone⟩ : ∃ shift, shift ≤ 2045 ∧ unitsInOne = 2 ^ shift :=
    ⟨1074, by decide, by decide +kernel⟩
  obtain ⟨x, hunits, hfinite⟩ := exists_units (n := n) (by rw [binade_eq]; omega) hshift
  rw [← hone] at hunits
  have hround : round (n * unitsInOne) 1 = x := by
    refine (nearest_round _ Nat.one_pos).eq_of_units ?_
    rw [hunits, Nat.cast_one, div_one]
  exact ⟨x, by rw [ofNat, hround], hunits, hfinite⟩

theorem toInt?_ofNat {n : Nat} (h : n < 2 ^ 53) : (ofNat n).toInt? = some (n : Int) := by
  obtain ⟨x, heq, hunits, hfinite⟩ := ofNat_of_lt h
  rw [heq, toInt?, hfinite, hunits, Nat.mul_mod_left, Nat.mul_div_cancel _ unitsInOne_pos]
  rfl

theorem mul_ofNat {a b : Nat} (ha : a < 2 ^ 53) (hb : b < 2 ^ 53) : mul (ofNat a) (ofNat b) = ofNat (a * b) := by
  obtain ⟨x, hx, hxunits, hxfinite⟩ := ofNat_of_lt ha
  obtain ⟨y, hy, hyunits, hyfinite⟩ := ofNat_of_lt hb
  rw [hx, hy, mul, hxfinite, hyfinite, ofNat, hxunits, hyunits]
  refine congrArg (signed false) (round_congr unitsInOne_pos Nat.one_pos ?_)
  ring

theorem add_ofNat {a b : Nat} (ha : a < 2 ^ 53) (hb : b < 2 ^ 53) : add (ofNat a) (ofNat b) = ofNat (a + b) := by
  obtain ⟨x, hx, hxunits, hxfinite⟩ := ofNat_of_lt ha
  obtain ⟨y, hy, hyunits, hyfinite⟩ := ofNat_of_lt hb
  have hzero : x.isZero && y.isZero → a + b = 0 := by
    rw [Bool.and_eq_true, isZero_iff, isZero_iff, hxunits, hyunits]
    rintro ⟨ha, hb⟩
    rw [(Nat.mul_eq_zero.1 ha).resolve_right unitsInOne_pos.ne',
      (Nat.mul_eq_zero.1 hb).resolve_right unitsInOne_pos.ne']
  rw [hx, hy, add, hxfinite, hyfinite, if_neg Bool.false_ne_true, if_neg Bool.false_ne_true]
  split
  · rename_i h
    rw [hzero h, ofNat_zero]
    rfl
  · have hsum : signedUnits false x + signedUnits false y = ((a + b) * unitsInOne : ℕ) := by
      rw [signedUnits, signedUnits, hxunits, hyunits]
      push_cast
      ring
    rw [hsum, ofUnits, ofNat, decide_eq_false, Int.natAbs_natCast]
    omega

/-! ### Reading -/

theorem signedUnits_false (m : Magnitude) : signedUnits false m = m.units := rfl

/-- A number that is not NaN and has no sign. -/
def IsUnsigned (x : Number) : Prop := ∃ m, x = signed false m

namespace IsUnsigned
variable {x y : Number}

/-- Infinity is kept by a factor that is finite and not zero. -/
protected theorem mul_ofNat (hx : x.IsUnsigned) {n : Nat} (hpos : 0 < n) (hn : n < 2 ^ 53) :
    (mul x (ofNat n)).IsUnsigned := by
  obtain ⟨x, rfl⟩ := hx
  obtain ⟨y, hy, hunits, hfinite⟩ := ofNat_of_lt hn
  rw [hy, mul, hfinite, Bool.or_false]
  split_ifs with hinfinite hzero
  · rw [Bool.or_eq_true, isZero_iff, isZero_iff, hunits] at hzero
    rcases hzero with hzero | hzero
    · rw [eq_of_units (y := .zero) hzero] at hinfinite
      cases hinfinite
    · exact absurd hzero (Nat.mul_pos hpos unitsInOne_pos).ne'
  · exact ⟨_, rfl⟩
  · exact ⟨_, rfl⟩

protected theorem add (hx : x.IsUnsigned) (hy : y.IsUnsigned) : (add x y).IsUnsigned := by
  obtain ⟨x, rfl⟩ := hx
  obtain ⟨y, rfl⟩ := hy
  unfold Number.add
  dsimp only
  rw [bne_self_eq_false, Bool.and_false, Bool.and_false, if_neg Bool.false_ne_true]
  split_ifs
  · exact ⟨_, rfl⟩
  · exact ⟨_, rfl⟩
  · exact ⟨_, rfl⟩
  · have hnonneg : ¬ signedUnits false x + signedUnits false y < 0 := by
      rw [signedUnits_false, signedUnits_false]
      omega
    exact ⟨_, by rw [ofUnits, decide_eq_false hnonneg]⟩

end IsUnsigned

/-- The value of a digit in radixes up to sixteen. -/
def digitValue (c : Char) : Nat :=
  if c.isDigit then c.toNat - '0'.toNat
  else if 'a' ≤ c then c.toNat - 'a'.toNat + 10
  else c.toNat - 'A'.toNat + 10

/-- The value of digits in a radix, exactly. -/
def valueIn (radix : Nat) (digits : List Char) : Nat := Nat.ofDigits radix (digits.reverse.map digitValue)

theorem valueIn_eq_foldl (radix : Nat) (digits : List Char) :
    valueIn radix digits = digits.foldl (fun n c => n * radix + digitValue c) 0 := by
  rw [valueIn, Nat.ofDigits_eq_foldr, List.foldr_map, List.foldr_reverse]
  simp only [Nat.cast_id, Nat.mul_comm, Nat.add_comm]

/-- A digit is a decimal one or a letter, in either case. -/
theorem digit_cases {c : Char} (h : Text.isHexDigit c = true) :
    c.isDigit = true ∨ c.isDigit = false ∧ ('a' ≤ c ∧ c ≤ 'f' ∨ ¬ 'a' ≤ c ∧ 'A' ≤ c ∧ c ≤ 'F') := by
  simp only [Text.isHexDigit, Bool.or_eq_true, Bool.and_eq_true, decide_eq_true_eq] at h
  cases hdigit : c.isDigit with
  | true => exact .inl rfl
  | false =>
    rw [hdigit] at h
    refine .inr ⟨rfl, ?_⟩
    rcases h with (h | h) | h
    · cases h
    · exact .inl h
    · exact .inr ⟨fun hlow => absurd (hlow.trans h.2) (by decide), h⟩

theorem digitIn?_of_lt {radix : Nat} {c : Char} (h : Text.isHexDigit c = true) (hlt : digitValue c < radix) :
    digitIn? radix c = some (digitValue c) := by
  have hfilter : (some (digitValue c)).filter (· < radix) = some (digitValue c) := by
    rw [Option.filter_some, if_pos (decide_eq_true hlt)]
  rw [← hfilter, digitIn?]
  congr 1
  unfold digitValue
  rcases digit_cases h with hdigit | ⟨hdigit, hc | ⟨hlow, hc⟩⟩
  · rw [if_pos hdigit, if_pos hdigit]
  · rw [hdigit, if_neg Bool.false_ne_true, if_neg Bool.false_ne_true, if_pos hc, if_pos hc.1]
  · rw [hdigit, if_neg Bool.false_ne_true, if_neg Bool.false_ne_true, if_neg fun h => hlow h.1, if_pos hc, if_neg hlow]

theorem digitValue_lt_of_isDigit {c : Char} (h : c.isDigit = true) : digitValue c < 10 := by
  rw [digitValue, if_pos h]
  rw [Char.isDigit, Bool.and_eq_true, decide_eq_true_eq, decide_eq_true_eq] at h
  have hle : c.toNat ≤ 57 := UInt32.le_iff_toNat_le.1 h.2
  have hzero : '0'.toNat = 48 := rfl
  omega

theorem digitValue_lt_of_isHexDigit {c : Char} (h : Text.isHexDigit c = true) : digitValue c < 16 := by
  rcases digit_cases h with hdigit | ⟨hdigit, hc | ⟨hlow, hc⟩⟩
  · exact (digitValue_lt_of_isDigit hdigit).trans (by decide)
  · have hle : c.toNat ≤ 102 := UInt32.le_iff_toNat_le.1 hc.2
    have ha : 'a'.toNat = 97 := rfl
    rw [digitValue, hdigit, if_neg Bool.false_ne_true, if_pos hc.1]
    omega
  · have hle : c.toNat ≤ 70 := UInt32.le_iff_toNat_le.1 hc.2
    have ha : 'A'.toNat = 65 := rfl
    rw [digitValue, hdigit, if_neg Bool.false_ne_true, if_neg hlow]
    omega

theorem digitValue_lt_of_isOctalDigit {c : Char} (h : Text.isOctalDigit c = true) :
    c.isDigit = true ∧ digitValue c < 8 := by
  rw [Text.isOctalDigit, Bool.and_eq_true, decide_eq_true_eq, decide_eq_true_eq] at h
  have hle : c.toNat ≤ 55 := UInt32.le_iff_toNat_le.1 h.2
  have hzero : '0'.toNat = 48 := rfl
  have hdigit : c.isDigit = true := by
    rw [Char.isDigit, Bool.and_eq_true, decide_eq_true_eq, decide_eq_true_eq]
    exact ⟨h.1, UInt32.le_iff_toNat_le.2 (hle.trans (by decide))⟩
  rw [digitValue, if_pos hdigit]
  exact ⟨hdigit, by omega⟩

section
variable {radix : Nat} {digits : List Char}

/-- Digits of a radix are read one by one. -/
theorem ofDigits_eq_foldl (hne : digits ≠ []) (hdigits : ∀ c ∈ digits, digitIn? radix c = some (digitValue c)) :
    ofDigits radix digits =
      digits.foldl (fun x c => add (mul x (ofNat radix)) (ofNat (digitValue c))) zero := by
  rw [ofDigits, if_neg (by rwa [List.isEmpty_iff])]
  dsimp only
  generalize zero = x
  clear hne
  induction digits generalizing x with
  | nil => rfl
  | cons c digits ih =>
    obtain ⟨hc, hmore⟩ := List.forall_mem_cons.1 hdigits
    rw [List.foldl_cons, List.foldl_cons, ← ih hmore]
    simp only [hc]
    rfl

variable (digits) in
/-- Where no digit makes a value smaller, digits do not. -/
theorem le_foldl {f : Nat → Char → Nat} (hf : ∀ n c, n ≤ f n c) (n : Nat) : n ≤ digits.foldl f n := by
  induction digits generalizing n with
  | nil => exact le_rfl
  | cons c digits ih => exact (hf n c).trans (ih _)

/-- What has been read is a whole number that is at most the value of all digits. -/
theorem foldl_ofNat (hradix : 0 < radix) (hsmall : radix < 2 ^ 53) {n : Nat}
    (h : digits.foldl (fun n c => n * radix + digitValue c) n < 2 ^ 53) :
    digits.foldl (fun x c => add (mul x (ofNat radix)) (ofNat (digitValue c))) (ofNat n) =
      ofNat (digits.foldl (fun n c => n * radix + digitValue c) n) := by
  induction digits generalizing n with
  | nil => rfl
  | cons c digits ih =>
    rw [List.foldl_cons] at *
    have hn : ∀ n, n ≤ n * radix := fun n => Nat.le_mul_of_pos_right n hradix
    have hle := le_foldl digits (fun n c => (hn n).trans (Nat.le_add_right _ (digitValue c)))
      (n * radix + digitValue c)
    have hn := hn n
    rw [List.foldl_cons, mul_ofNat (by omega) hsmall, add_ofNat (by omega) (by omega)]
    exact ih h

/-- Digits whose value is below two to the fifty-third are read exactly. -/
theorem ofDigits_eq_ofNat (hne : digits ≠ []) (hdigits : ∀ c ∈ digits, digitIn? radix c = some (digitValue c))
    (hradix : 0 < radix) (hsmall : radix < 2 ^ 53) (hvalue : valueIn radix digits < 2 ^ 53) :
    ofDigits radix digits = ofNat (valueIn radix digits) := by
  rw [valueIn_eq_foldl] at *
  rw [ofDigits_eq_foldl hne hdigits, ← ofNat_zero, foldl_ofNat hradix hsmall hvalue]

theorem ofDigits_isUnsigned (hne : digits ≠ []) (hdigits : ∀ c ∈ digits, digitIn? radix c = some (digitValue c))
    (hradix : 0 < radix) (hsmall : radix < 2 ^ 53) : (ofDigits radix digits).IsUnsigned := by
  rw [ofDigits_eq_foldl hne hdigits]
  refine List.foldlRecOn digits _ ⟨_, rfl⟩ fun x hx c _ => ?_
  exact (hx.mul_ofNat hradix hsmall).add ⟨_, rfl⟩

end

end Number

/-! ### Decimals -/

namespace Decimal

open Number
variable {digits : List Char}

section
variable (hdigits : ∀ c ∈ digits, c.isDigit = true)
include hdigits

theorem naturalOf_eq_valueIn : naturalOf digits = valueIn 10 digits := by
  rw [naturalOf_eq_foldl, valueIn_eq_foldl]
  refine List.foldl_ext _ _ _ fun n c hc => ?_
  rw [Number.digitValue, if_pos (hdigits c hc)]
  rfl

theorem valueIn_lt : valueIn 10 digits < 10 ^ digits.length := by
  have hlt : ∀ d ∈ digits.reverse.map Number.digitValue, d < 10 := by
    intro d hd
    obtain ⟨c, hc, rfl⟩ := List.mem_map.1 hd
    exact digitValue_lt_of_isDigit (hdigits c (List.mem_reverse.1 hc))
  have hvalue := Nat.ofDigits_lt_base_pow_length (by decide) hlt
  rwa [List.length_map, List.length_reverse] at hvalue

end

/-- Digits of an exponent are left out only where the bound is reached with and without them. -/
theorem exponentOf_cases (digits : List Char) :
    exponentOf digits = naturalOf digits ∨ exponentBound ≤ exponentOf digits ∧ exponentBound ≤ naturalOf digits := by
  rw [naturalOf_eq_foldl, exponentOf]
  generalize 0 = n
  induction digits generalizing n with
  | nil => exact .inl rfl
  | cons c digits ih =>
    by_cases hn : n < exponentBound
    · rw [List.foldl_cons, List.foldl_cons, if_pos hn]
      exact ih _
    · right
      have hn := Nat.le_of_not_lt hn
      refine ⟨hn.trans (le_foldl _ (fun n c => ?_) n), hn.trans (le_foldl _ (fun n c => ?_) n)⟩
      · split <;> omega
      · omega

end Decimal
end LatentExpr
