import LatentExpr.Number.Decimal
import Mathlib

/-!
What rounding owes. The magnitude of a rational number of units is nearer to it than any other magnitude, and its
code is even if another one is as near (`Nearest`). There is just one such magnitude, and `round` finds it for every
quotient, `toMagnitude` for every decimal.
-/
namespace LatentExpr

theorem binade_eq_two_pow : binade = 2 ^ 52 := rfl

theorem Magnitude.unitsInOne_pos : 0 < unitsInOne := by decide +kernel

theorem binade_eq : binade = 4503599627370496 := rfl

namespace Magnitude
variable {x y : Magnitude} {q : ℚ}

/-! ### Units and codes -/

theorem code_eq (x : Magnitude) : x.code = x.shift * binade + x.significand := by
  unfold shift significand
  rw [binade_eq]
  split <;> omega

theorem significand_lt (x : Magnitude) : x.significand < 2 * binade := by
  unfold significand
  rw [binade_eq]
  split <;> omega

/-- Only below the normal range are significands small. -/
theorem normal (x : Magnitude) : x.shift = 0 ∨ binade ≤ x.significand := by
  unfold shift significand
  rw [binade_eq]
  split <;> omega

/-- A significand that has reached the next power of two is carried into the exponent. -/
theorem units_of_code {shift n : Nat} (hn : n ≤ 2 * binade) (hnormal : shift = 0 ∨ binade ≤ n)
    (h : x.code = shift * binade + n) : x.units = n * 2 ^ shift := by
  have hcode := x.code_eq
  have hlt := x.significand_lt
  have hx := x.normal
  show x.significand * 2 ^ x.shift = n * 2 ^ shift
  rcases Nat.lt_or_eq_of_le hn with hn | rfl
  · obtain ⟨hshift, hsignificand⟩ : x.shift = shift ∧ x.significand = n := by
      rw [binade_eq] at *
      omega
    rw [hshift, hsignificand]
  · obtain ⟨hshift, hsignificand⟩ : x.shift = shift + 1 ∧ x.significand = binade := by
      rw [binade_eq] at *
      omega
    rw [hshift, hsignificand]
    ring

theorem units_lt_units (h : x.code < y.code) : x.units < y.units := by
  have hx := x.code_eq
  have hy := y.code_eq
  have hlt := x.significand_lt
  have hlt' := y.significand_lt
  have hxnormal := x.normal
  have hnormal := y.normal
  show x.significand * 2 ^ x.shift < y.significand * 2 ^ y.shift
  rcases Nat.lt_trichotomy x.shift y.shift with hshift | hshift | hshift
  · calc
      x.significand * 2 ^ x.shift < 2 * binade * 2 ^ x.shift := Nat.mul_lt_mul_of_pos_right hlt (Nat.two_pow_pos _)
      _ = binade * 2 ^ (x.shift + 1) := by ring
      _ ≤ binade * 2 ^ y.shift := Nat.mul_le_mul_left _ (Nat.pow_le_pow_right Nat.two_pos hshift)
      _ ≤ y.significand * 2 ^ y.shift := Nat.mul_le_mul_right _ (hnormal.resolve_left (by omega))
  · rw [hshift] at hx ⊢
    exact Nat.mul_lt_mul_of_pos_right (by omega) (Nat.two_pow_pos _)
  · rw [binade_eq] at *
    omega

theorem eq_of_code (h : x.code = y.code) : x = y := by
  cases x
  cases y
  cases h
  rfl

theorem eq_of_units (h : x.units = y.units) : x = y := by
  rcases Nat.lt_trichotomy x.code y.code with hlt | heq | hlt
  · exact absurd h (units_lt_units hlt).ne
  · exact eq_of_code heq
  · exact absurd h (units_lt_units hlt).ne'

theorem units_le_units (h : x.code ≤ y.code) : x.units ≤ y.units := by
  rcases Nat.lt_or_eq_of_le h with hlt | heq
  · exact (units_lt_units hlt).le
  · rw [units, units, significand, significand, shift, shift, heq]

/-! ### The nearest magnitude -/

/-- The magnitude that is nearest to a number of units, the one with an even code where two are equally near. Infinity
counts as the power of two that the largest finite magnitude is one step below. -/
structure Nearest (x : Magnitude) (q : ℚ) : Prop where
  closest : ∀ y : Magnitude, |x.units - q| ≤ |y.units - q|
  even : ∀ y : Magnitude, y ≠ x → |y.units - q| = |x.units - q| → x.code % 2 = 0

/-- Of two magnitudes that are equally near, the one with the even code has another one behind it that is nearer. -/
theorem Nearest.unique (hx : x.Nearest q) (hy : y.Nearest q) : y = x := by
  by_contra hne
  wlog hlt : x.code < y.code generalizing x y
  · exact this hy hx (Ne.symm hne) (lt_of_le_of_ne (Nat.le_of_not_lt hlt) fun heq => hne (eq_of_code heq))
  have hsame : |(y.units : ℚ) - q| = |x.units - q| := le_antisymm (hy.closest x) (hx.closest y)
  have hxeven := hx.even y hne hsame
  have hyeven := hy.even x (Ne.symm hne) hsame.symm
  have hle := y.code_le
  let z : Magnitude := ⟨x.code + 1, by omega⟩
  have hxz : (x.units : ℚ) < z.units := by exact_mod_cast units_lt_units (y := z) (Nat.lt_succ_self _)
  have hzy : (z.units : ℚ) < y.units := by
    exact_mod_cast units_lt_units (x := z) (show x.code + 1 < y.code by omega)
  have hz := hx.closest z
  rcases abs_eq_abs.1 hsame with heq | heq
  · linarith
  · rw [abs_of_neg (by linarith : (x.units : ℚ) - q < 0)] at hz
    rcases abs_cases ((z.units : ℚ) - q) with ⟨h, -⟩ | ⟨h, -⟩ <;> linarith

theorem Nearest.iff_eq (hx : x.Nearest q) : y.Nearest q ↔ y = x := by
  refine ⟨hx.unique, ?_⟩
  rintro rfl
  exact hx

/-- A magnitude that is nearer than any other one is the nearest. -/
theorem nearest_of_lt (h : ∀ y : Magnitude, y ≠ x → |x.units - q| < |y.units - q|) : x.Nearest q where
  closest y := by
    by_cases hne : y = x
    · rw [hne]
    · exact (h y hne).le
  even y hne heq := absurd heq (h y hne).ne'

theorem nearest_units (x : Magnitude) : x.Nearest x.units := by
  refine nearest_of_lt fun y hne => ?_
  have hapart : (y.units : ℚ) - x.units ≠ 0 := sub_ne_zero.2 fun h => hne (eq_of_units (Nat.cast_injective h))
  rw [sub_self, abs_zero]
  exact abs_pos.2 hapart

/-- A number that has a magnitude of its own is rounded to that one. -/
theorem Nearest.eq_of_units (h : x.Nearest q) (hq : q = y.units) : x = y := by
  rw [hq] at h
  exact (nearest_units y).unique h

theorem nearest_infinite (h : infinite.units ≤ q) : infinite.Nearest q := by
  refine nearest_of_lt fun y hne => ?_
  have hbelow : y.units < infinite.units :=
    lt_of_le_of_ne (units_le_units y.code_le) fun h => hne (Magnitude.eq_of_units h)
  have hbelow' : (y.units : ℚ) < infinite.units := Nat.cast_lt.2 hbelow
  rw [abs_of_nonpos (by linarith), abs_of_nonpos (by linarith)]
  linarith

theorem nearest_zero (hnonneg : 0 ≤ q) (h : q < 1 / 2) : zero.Nearest q := by
  refine nearest_of_lt fun y hne => ?_
  have hzero : zero.units = 0 := rfl
  have hpos : 0 < y.units := Nat.pos_of_ne_zero fun h => hne (Magnitude.eq_of_units (h.trans hzero.symm))
  have hone : (1 : ℚ) ≤ y.units := by exact_mod_cast hpos
  rw [hzero, Nat.cast_zero, zero_sub, abs_neg, abs_of_nonneg hnonneg, abs_of_nonneg (by linarith)]
  linarith

/-! ### Rounding -/

/-- Rounding to a whole number is off by at most one half, and by one half only for an even one. -/
theorem nearestEven_error (num : Nat) {den : Nat} (hden : 0 < den) :
    |(nearestEven num den : ℚ) - num / den| ≤ 1 / 2 ∧
      (|(nearestEven num den : ℚ) - num / den| = 1 / 2 → nearestEven num den % 2 = 0) := by
  have hpos : (0 : ℚ) < den := by exact_mod_cast hden
  have hsplit : (num : ℚ) / den = (num / den : ℕ) + (num % den : ℕ) / den := by
    rw [eq_comm, ← mul_left_inj' hpos.ne', add_mul, div_mul_cancel₀ _ hpos.ne', div_mul_cancel₀ _ hpos.ne']
    exact_mod_cast Nat.div_add_mod' num den
  have hrest : (0 : ℚ) ≤ (num % den : ℕ) / den := by positivity
  have hrest' : ((num % den : ℕ) : ℚ) / den < 1 := by
    rw [div_lt_one hpos]
    exact_mod_cast Nat.mod_lt num hden
  have hhalf : ((num % den : ℕ) : ℚ) / den < 1 / 2 ↔ 2 * (num % den) < den := by
    rw [div_lt_iff₀ hpos, one_div_mul_eq_div, lt_div_iff₀' two_pos]
    exact_mod_cast Iff.rfl
  have hhalf' : 1 / 2 < ((num % den : ℕ) : ℚ) / den ↔ den < 2 * (num % den) := by
    rw [lt_div_iff₀ hpos, one_div_mul_eq_div, div_lt_iff₀' two_pos]
    exact_mod_cast Iff.rfl
  rw [hsplit, nearestEven]
  generalize num / den = below at *
  split_ifs with hbelow habove
  · rw [← hhalf] at hbelow
    rw [sub_add_cancel_left, abs_neg, abs_of_nonneg hrest]
    exact ⟨hbelow.le, fun h => absurd h hbelow.ne⟩
  · rw [← hhalf'] at habove
    rw [Nat.cast_add, Nat.cast_one, add_sub_add_left_eq_sub, abs_of_pos (sub_pos.2 hrest')]
    exact ⟨by linarith, fun h => by linarith⟩
  · rw [← hhalf, not_lt] at hbelow
    rw [← hhalf', not_lt] at habove
    rw [le_antisymm habove hbelow, Nat.cast_add, add_sub_add_left_eq_sub]
    refine ⟨?_, fun _ => by omega⟩
    rcases Nat.mod_two_eq_zero_or_one below with h | h <;> rw [h] <;> norm_num

/-- No whole number is nearer to a quotient than the one it is rounded to, and the one it is rounded to is even if
another one is as near. -/
theorem nearestEven_nearest (num : Nat) {den : Nat} (hden : 0 < den) (k : ℕ) :
    |(nearestEven num den : ℚ) - num / den| ≤ |(k : ℚ) - num / den| ∧
      (k ≠ nearestEven num den → |(k : ℚ) - num / den| = |(nearestEven num den : ℚ) - num / den| →
        nearestEven num den % 2 = 0) := by
  obtain ⟨herror, heven⟩ := nearestEven_error num hden
  generalize nearestEven num den = n at *
  by_cases hne : k = n
  · rw [hne]
    exact ⟨le_rfl, fun h => absurd rfl h⟩
  have hapart : (1 : ℚ) ≤ |(k : ℚ) - n| := by
    have hint : (1 : ℤ) ≤ |(k : ℤ) - n| := Int.one_le_abs (sub_ne_zero.2 (by exact_mod_cast hne))
    exact_mod_cast hint
  have htriangle := abs_sub_le (k : ℚ) (num / den) n
  rw [abs_sub_comm ((num : ℚ) / den)] at htriangle
  refine ⟨by linarith, fun _ heq => heven ?_⟩
  linarith

/-- A magnitude is the nearest one if it is so among the multiples of a power of two: every other magnitude is one of
them or too small. -/
theorem nearest_of_multiple {shift n : Nat} (hunits : x.units = n * 2 ^ shift) (hcode : x.code % 2 = n % 2)
    (hlow : shift = 0 ∨ (binade * 2 ^ shift : ℕ) ≤ q)
    (h : ∀ k : ℕ, |((n * 2 ^ shift : ℕ) : ℚ) - q| ≤ |((k * 2 ^ shift : ℕ) : ℚ) - q| ∧
      (k ≠ n → |((k * 2 ^ shift : ℕ) : ℚ) - q| = |((n * 2 ^ shift : ℕ) : ℚ) - q| → n % 2 = 0)) : x.Nearest q := by
  have hother : ∀ y : Magnitude, |(x.units : ℚ) - q| < |y.units - q| ∨ ∃ k, y.units = k * 2 ^ shift := by
    intro y
    rcases Nat.lt_or_ge y.shift shift with hshift | hshift
    · left
      have hlow := hlow.resolve_left (by omega)
      have hsmall : y.units < binade * 2 ^ shift := by
        calc
          y.units < 2 * binade * 2 ^ y.shift := Nat.mul_lt_mul_of_pos_right y.significand_lt (Nat.two_pow_pos _)
          _ = binade * 2 ^ (y.shift + 1) := by ring
          _ ≤ binade * 2 ^ shift := Nat.mul_le_mul_left _ (Nat.pow_le_pow_right Nat.two_pos hshift)
      have hsmall' : (y.units : ℚ) < (binade * 2 ^ shift : ℕ) := by exact_mod_cast hsmall
      have hclosest := (h binade).1
      rw [hunits]
      refine hclosest.trans_lt ?_
      rw [abs_of_nonpos (by linarith), abs_of_nonpos (by linarith)]
      linarith
    · right
      refine ⟨y.significand * 2 ^ (y.shift - shift), ?_⟩
      rw [Nat.mul_assoc, ← Nat.pow_add, Nat.sub_add_cancel hshift]
      rfl
  constructor
  · intro y
    rcases hother y with hlt | ⟨k, hk⟩
    · exact hlt.le
    · rw [hunits, hk]
      exact (h k).1
  · intro y hne heq
    rcases hother y with hlt | ⟨k, hk⟩
    · exact absurd heq hlt.ne'
    · rw [hunits, hk] at heq
      rw [hcode]
      refine (h k).2 ?_ heq
      rintro rfl
      exact hne (eq_of_units (hk.trans hunits.symm))

theorem nearestEven_bounds (num den : Nat) :
    num / den ≤ nearestEven num den ∧ nearestEven num den ≤ num / den + 1 := by
  rw [nearestEven]
  split_ifs <;> omega

theorem units_infinite : infinite.units = binade * 2 ^ 2046 :=
  units_of_code (by decide) (.inr le_rfl) (by decide)

/-- What `round` rounds to a whole number is below two binades, and not below one unless no power of two is taken
off. -/
theorem round_bounds (num : Nat) {den : Nat} (hden : 0 < den) :
    ∃ shift, round num den = ofCode (shift * binade + nearestEven num (den * 2 ^ shift)) ∧
      (shift = 0 ∨ binade * (den * 2 ^ shift) ≤ num) ∧ num < 2 * binade * (den * 2 ^ shift) := by
  refine ⟨(num / den).log2 - 52, rfl, ?_, ?_⟩
  · rcases Nat.eq_zero_or_pos ((num / den).log2 - 52) with hzero | hpos
    · exact .inl hzero
    · right
      have hne : num / den ≠ 0 := by
        intro h
        rw [h] at hpos
        exact absurd hpos (by decide)
      calc
        binade * (den * 2 ^ ((num / den).log2 - 52)) = 2 ^ (52 + ((num / den).log2 - 52)) * den := by
          rw [Nat.pow_add, ← binade_eq_two_pow]
          ring
        _ = 2 ^ (num / den).log2 * den := by rw [Nat.add_sub_cancel' (by omega)]
        _ ≤ num / den * den := Nat.mul_le_mul_right _ (Nat.log2_self_le hne)
        _ ≤ num := Nat.div_mul_le_self _ _
  · calc
      num < (num / den + 1) * den := Nat.lt_mul_of_div_lt (Nat.lt_succ_self _) hden
      _ ≤ 2 ^ ((num / den).log2 + 1) * den := Nat.mul_le_mul_right _ Nat.lt_log2_self
      _ ≤ 2 ^ (52 + ((num / den).log2 - 52) + 1) * den :=
        Nat.mul_le_mul_right _ (Nat.pow_le_pow_right Nat.two_pos (by omega))
      _ = 2 * binade * (den * 2 ^ ((num / den).log2 - 52)) := by
        rw [Nat.pow_succ, Nat.pow_add, ← binade_eq_two_pow]
        ring

theorem nearest_round (num : Nat) {den : Nat} (hden : 0 < den) : (round num den).Nearest (num / den) := by
  obtain ⟨shift, hround, hlow, hhigh⟩ := round_bounds num hden
  have hpos : (0 : ℚ) < den := by exact_mod_cast hden
  have hgrid : 0 < den * 2 ^ shift := Nat.mul_pos hden (Nat.two_pow_pos _)
  have hlow' : shift = 0 ∨ ((binade * 2 ^ shift : ℕ) : ℚ) ≤ num / den := by
    refine hlow.imp_right fun h => ?_
    rw [le_div_iff₀ hpos]
    exact_mod_cast (show binade * 2 ^ shift * den ≤ num by linarith)
  have hnormal : shift = 0 ∨ binade ≤ nearestEven num (den * 2 ^ shift) :=
    hlow.imp_right fun h => ((Nat.le_div_iff_mul_le hgrid).2 h).trans (nearestEven_bounds _ _).1
  have hcarry : nearestEven num (den * 2 ^ shift) ≤ 2 * binade :=
    (nearestEven_bounds _ _).2.trans ((Nat.div_lt_iff_lt_mul hgrid).2 hhigh)
  have hnearest := nearestEven_nearest num hgrid
  rw [hround]
  generalize nearestEven num (den * 2 ^ shift) = n at *
  rcases Nat.lt_or_ge (2047 * binade) (shift * binade + n) with hover | hfits
  · -- the power of two is so large that not even infinity is above the quotient
    have hinfinite : ofCode (shift * binade + n) = infinite := eq_of_code (Nat.min_eq_right hover.le)
    have hshift : 2046 ≤ shift := by
      rw [binade_eq] at *
      omega
    have hunits : infinite.units ≤ binade * 2 ^ shift := by
      rw [units_infinite]
      gcongr
      exact one_le_two
    rw [hinfinite]
    refine nearest_infinite ((Nat.cast_le.2 hunits).trans (hlow'.resolve_left ?_))
    omega
  · have hcode : (ofCode (shift * binade + n)).code = shift * binade + n := Nat.min_eq_left hfits
    refine nearest_of_multiple (units_of_code hcarry hnormal hcode) ?_ hlow' fun k => ?_
    · rw [hcode, binade_eq]
      omega
    · have hscale : (0 : ℚ) < 2 ^ shift := by positivity
      have hmultiple : ∀ k : ℕ,
          |((k * 2 ^ shift : ℕ) : ℚ) - num / den| = |(k : ℚ) - num / (den * 2 ^ shift : ℕ)| * 2 ^ shift := by
        intro k
        have hfactor : ((k * 2 ^ shift : ℕ) : ℚ) - num / den = (k - num / (den * 2 ^ shift : ℕ)) * 2 ^ shift := by
          push_cast
          field_simp
        rw [hfactor, abs_mul, abs_of_pos hscale]
      rw [hmultiple, hmultiple, mul_le_mul_iff_left₀ hscale, mul_left_inj' hscale.ne']
      exact hnearest k

end Magnitude

/-! ### Decimals -/

namespace Decimal

open Magnitude

/-- The number that a decimal is, exactly. -/
def value (d : Decimal) : ℚ := d.digits * 10 ^ d.exponent

/-- Above the bound every decimal but zero is at least as large as infinity counts. -/
theorem units_infinite_le {d : Decimal} (hdigits : d.digits ≠ 0) (h : 400 < d.exponent) :
    infinite.units ≤ d.value * unitsInOne := by
  have hinfinite : infinite.units ≤ 10 ^ 401 * unitsInOne := by
    rw [units_infinite]
    decide +kernel
  have hdigits' : (1 : ℚ) ≤ d.digits := by exact_mod_cast Nat.one_le_iff_ne_zero.2 hdigits
  have hpow : (10 : ℚ) ^ 401 ≤ 10 ^ d.exponent := by
    rw [← zpow_natCast]
    exact zpow_le_zpow_right₀ (by norm_num) h
  calc
    (infinite.units : ℚ) ≤ 10 ^ 401 * unitsInOne := by exact_mod_cast hinfinite
    _ ≤ d.value * unitsInOne := by
      refine mul_le_mul_of_nonneg_right (hpow.trans ?_) (Nat.cast_nonneg _)
      exact le_mul_of_one_le_left (by positivity) hdigits'

/-- Far below one every decimal is nearer to zero than to the smallest other magnitude. -/
theorem value_lt {d : Decimal} {length : Nat} (hdigits : d.digits < 10 ^ length) (h : d.exponent + length ≤ -400) :
    d.value * unitsInOne < 1 / 2 := by
  have hsmall : 2 * unitsInOne < 10 ^ 400 := by decide +kernel
  have hdigits : (d.digits : ℚ) < 10 ^ (length : ℤ) := by exact_mod_cast hdigits
  have hvalue : d.value < 10 ^ (-400 : ℤ) := by
    calc
      d.value < 10 ^ (length : ℤ) * 10 ^ d.exponent := mul_lt_mul_of_pos_right hdigits (by positivity)
      _ = 10 ^ (length + d.exponent : ℤ) := (zpow_add₀ (by norm_num) _ _).symm
      _ ≤ 10 ^ (-400 : ℤ) := zpow_le_zpow_right₀ (by norm_num) (by omega)
  have hpos : (0 : ℚ) < unitsInOne := by exact_mod_cast unitsInOne_pos
  calc
    d.value * unitsInOne < 10 ^ (-400 : ℤ) * unitsInOne := mul_lt_mul_of_pos_right hvalue hpos
    _ < 1 / 2 := by
      rw [zpow_neg, inv_mul_lt_iff₀ (by positivity), mul_one_div, lt_div_iff₀' two_pos]
      exact_mod_cast hsmall

theorem nearest_zero_of_small {d : Decimal} {length : Nat} (hdigits : d.digits < 10 ^ length)
    (h : d.exponent + length ≤ -400) : zero.Nearest (d.value * unitsInOne) := by
  refine nearest_zero (mul_nonneg ?_ (Nat.cast_nonneg _)) (value_lt hdigits h)
  unfold value
  positivity

/-- A decimal is read as the magnitude that is nearest to it. -/
theorem nearest_toMagnitude (d : Decimal) : d.toMagnitude.Nearest (d.value * unitsInOne) := by
  unfold toMagnitude
  split_ifs with hzero hlarge hsmall
  · rw [value, hzero, Nat.cast_zero, zero_mul, zero_mul]
    exact nearest_units zero
  · exact nearest_infinite (units_infinite_le hzero hlarge)
  · have hdigits : d.digits < 10 ^ (d.digits.log2 + 1) :=
      Nat.lt_log2_self.trans_le (Nat.pow_le_pow_left (by decide) _)
    exact nearest_zero_of_small hdigits (by omega)
  · split
    · rename_i e he
      have hvalue : d.value * unitsInOne = (d.digits * Nat.pow 10 e * unitsInOne : ℕ) / (1 : ℕ) := by
        rw [value, he, Int.ofNat_eq_natCast, zpow_natCast, Nat.cast_one, div_one, Nat.cast_mul, Nat.cast_mul]
        exact_mod_cast rfl
      rw [hvalue]
      exact nearest_round _ Nat.one_pos
    · rename_i e he
      have hvalue : d.value * unitsInOne = (d.digits * unitsInOne : ℕ) / (Nat.pow 10 (e + 1) : ℕ) := by
        rw [value, he, zpow_negSucc, ← div_eq_mul_inv, div_mul_eq_mul_div, Nat.cast_mul]
        exact_mod_cast rfl
      rw [hvalue]
      exact nearest_round _ (Nat.pow_pos (by decide))

/-- Of exponents that are far out it makes no difference which one it is. -/
theorem nearest_of_far {digits length : Nat} {e e' : ℤ} (hdigits : digits < 10 ^ length)
    (h : 400 < e ∧ 400 < e' ∨ e + length ≤ -400 ∧ e' + length ≤ -400) {m : Magnitude}
    (hm : m.Nearest ((⟨digits, e⟩ : Decimal).value * unitsInOne)) :
    m.Nearest ((⟨digits, e'⟩ : Decimal).value * unitsInOne) := by
  by_cases hzero : digits = 0
  · have hvalue : ∀ e : ℤ, (⟨digits, e⟩ : Decimal).value = 0 := by
      intro e
      rw [value, hzero, Nat.cast_zero, zero_mul]
    rwa [hvalue] at *
  rcases h with ⟨he, he'⟩ | ⟨he, he'⟩
  · rw [(nearest_infinite (units_infinite_le hzero he)).unique hm]
    exact nearest_infinite (units_infinite_le hzero he')
  · rw [(nearest_zero_of_small hdigits he).unique hm]
    exact nearest_zero_of_small hdigits he'

end Decimal
end LatentExpr
