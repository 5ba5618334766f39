import LatentExpr.Number.Shortest
import LatentExpr.Proofs.Number.Digits

/-!
The shortest decimal of a magnitude. A decimal reads back as a magnitude if it lies between the midpoints to the two
magnitudes beside it. What lies between such a decimal and the magnitude reads back, too; so of the multiples of a power
of ten only the two beside the magnitude have to be tried, and those of the powers that leave seventeen digits are never
further apart than the midpoints. Hence `shortest` reads back, no decimal with fewer digits does, and of those with as
many digits none is nearer (`shortest_spec`).
-/
namespace LatentExpr

-- a power of two with so large an exponent is not to be computed
attribute [local irreducible] Magnitude.unitsInOne

/-- How many units a decimal is. -/
def Decimal.units (d : Decimal) : ℚ := d.value * Magnitude.unitsInOne

namespace Magnitude
variable {x y below above : Magnitude} {q r : ℚ}

/-! ### The magnitudes beside a magnitude -/

theorem units_succ (h : above.code = x.code + 1) : above.units = x.units + 2 ^ x.shift := by
  have hcode := x.code_eq
  have hlt := x.significand_lt
  have hnormal := x.normal
  have habove : above.units = (x.significand + 1) * 2 ^ x.shift :=
    units_of_code (by omega) (by omega) (by omega)
  have hx : x.units = x.significand * 2 ^ x.shift := rfl
  rw [habove, hx, Nat.add_mul, Nat.one_mul]

/-- The gap below a power of two is half the gap above. -/
theorem units_pred (h : below.code + 1 = x.code) :
    (x.significand = binade ∧ 0 < x.shift → 2 * below.units + 2 ^ x.shift = 2 * x.units) ∧
      (¬ (x.significand = binade ∧ 0 < x.shift) → below.units + 2 ^ x.shift = x.units) := by
  have hcode := x.code_eq
  have hlt := x.significand_lt
  have hnormal := x.normal
  have hx : x.units = x.significand * 2 ^ x.shift := rfl
  constructor
  · rintro ⟨hbinade, hshift⟩
    obtain ⟨shift, hs⟩ : ∃ shift, x.shift = shift + 1 := ⟨x.shift - 1, by omega⟩
    have hbelow : below.units = (2 * binade - 1) * 2 ^ shift := by
      refine units_of_code (Nat.sub_le _ _) (.inr ?_) ?_
      · rw [binade_eq]
        omega
      · rw [binade_eq] at *
        omega
    obtain ⟨n, hn⟩ : ∃ n, 2 * binade = n + 1 := Nat.exists_eq_succ_of_ne_zero (by decide)
    have hdouble : 2 * x.units = (n + 1) * 2 ^ (shift + 1) := by rw [hx, hs, hbinade, ← Nat.mul_assoc, hn]
    rw [hdouble, hs, hbelow, hn]
    simp only [Nat.add_sub_cancel]
    ring
  · intro hgap
    have hpos : 0 < x.significand := by
      rw [binade_eq] at *
      omega
    have hbelow : below.units = (x.significand - 1) * 2 ^ x.shift := by
      refine units_of_code (by omega) ?_ ?_
      · rw [binade_eq] at *
        omega
      · omega
    obtain ⟨n, hn⟩ : ∃ n, x.significand = n + 1 := ⟨x.significand - 1, by omega⟩
    rw [hbelow, hx, hn, Nat.add_sub_cancel]
    ring

theorem midpoints_eq (hbelow : below.code + 1 = x.code) (habove : above.code = x.code + 1) :
    x.midpoints = (2 * (below.units + x.units), 2 * (x.units + above.units)) := by
  obtain ⟨hpower, hother⟩ := units_pred hbelow
  have hsucc := units_succ habove
  have hpow : Nat.pow 2 x.shift = 2 ^ x.shift := rfl
  rw [midpoints, hpow, hsucc]
  split_ifs with hgap
  · have := hpower hgap
    ext <;> dsimp only <;> omega
  · have := hother hgap
    ext <;> dsimp only <;> omega

/-- The midpoints are further apart than a part in two to the fifty-third. -/
theorem units_lt_gap (hbelow : below.code + 1 = x.code) (habove : above.code = x.code + 1) :
    x.units < binade * (above.units - below.units) := by
  obtain ⟨hpower, hother⟩ := units_pred hbelow
  have hsucc := units_succ habove
  have hpos : 0 < 2 ^ x.shift := Nat.two_pow_pos _
  have hx : x.units = x.significand * 2 ^ x.shift := rfl
  by_cases hgap : x.significand = binade ∧ 0 < x.shift
  · have hwide : 2 ^ x.shift < above.units - below.units := by
      have := hpower hgap
      omega
    rw [hx, hgap.1]
    exact Nat.mul_lt_mul_of_pos_left hwide (by decide)
  · have hwide : above.units - below.units = 2 * 2 ^ x.shift := by
      have := hother hgap
      omega
    calc
      x.units < 2 * binade * 2 ^ x.shift := hx ▸ Nat.mul_lt_mul_of_pos_right x.significand_lt hpos
      _ = binade * (above.units - below.units) := by
        rw [hwide]
        ring

/-! ### Between the midpoints -/

/-- Of two numbers the larger one is as near to a third one if that is not below the middle. -/
theorem abs_sub_le_of_lt {a b : ℚ} (h : a < b) :
    (|b - q| ≤ |a - q| ↔ a + b ≤ 2 * q) ∧ (|a - q| ≤ |b - q| ↔ 2 * q ≤ a + b) := by
  have hsquares : (a - q) ^ 2 - (b - q) ^ 2 = (b - a) * (2 * q - (a + b)) := by ring
  have hsquares' : (b - q) ^ 2 - (a - q) ^ 2 = (b - a) * (a + b - 2 * q) := by ring
  have hpos : 0 < b - a := sub_pos.2 h
  constructor
  · rw [← sq_le_sq, ← sub_nonneg, hsquares, mul_nonneg_iff_of_pos_left hpos, sub_nonneg]
  · rw [← sq_le_sq, ← sub_nonneg, hsquares', mul_nonneg_iff_of_pos_left hpos, sub_nonneg]

/-- A magnitude is nearest to what lies between its midpoints, and to these if its code is even. -/
theorem nearest_iff_between (hbelow : below.code + 1 = x.code) (habove : above.code = x.code + 1) :
    x.Nearest q ↔ ((below.units + x.units : ℚ) ≤ 2 * q ∧ 2 * q ≤ x.units + above.units) ∧
      (x.code % 2 = 0 ∨ (below.units + x.units : ℚ) ≠ 2 * q ∧ 2 * q ≠ x.units + above.units) := by
  have hlow : (below.units : ℚ) < x.units := by exact_mod_cast units_lt_units (x := below) (y := x) (by omega)
  have hhigh : (x.units : ℚ) < above.units := by exact_mod_cast units_lt_units (x := x) (y := above) (by omega)
  have hne : below ≠ x ∧ above ≠ x :=
    ⟨fun h => hlow.ne (by rw [h]), fun h => hhigh.ne' (by rw [h])⟩
  constructor
  · intro hx
    have hbetween : (below.units + x.units : ℚ) ≤ 2 * q ∧ 2 * q ≤ x.units + above.units :=
      ⟨(abs_sub_le_of_lt hlow).1.1 (hx.closest below), (abs_sub_le_of_lt hhigh).2.1 (hx.closest above)⟩
    refine ⟨hbetween, or_iff_not_imp_left.2 fun hodd => ⟨fun h => hodd ?_, fun h => hodd ?_⟩⟩
    · exact hx.even below hne.1 (le_antisymm ((abs_sub_le_of_lt hlow).2.2 h.ge) (hx.closest below))
    · exact hx.even above hne.2 (le_antisymm ((abs_sub_le_of_lt hhigh).1.2 h.ge) (hx.closest above))
  · rintro ⟨⟨hlower, hupper⟩, heven⟩
    -- the other magnitudes are not between those beside this one
    have hother : ∀ y : Magnitude, y ≠ x →
        (y.units : ℚ) ≤ below.units ∨ (above.units : ℚ) ≤ y.units := by
      intro y hy
      have hcode : y.code ≠ x.code := fun h => hy (eq_of_code h)
      rcases Nat.lt_or_ge y.code x.code with hlt | hge
      · exact .inl (by exact_mod_cast units_le_units (show y.code ≤ below.code by omega))
      · exact .inr (by exact_mod_cast units_le_units (show above.code ≤ y.code by omega))
    refine ⟨fun y => ?_, fun y hy heq => ?_⟩
    · by_cases hy : y = x
      · rw [hy]
      · rcases hother y hy with h | h
        · exact (abs_sub_le_of_lt (h.trans_lt hlow)).1.2 (by linarith)
        · exact (abs_sub_le_of_lt (hhigh.trans_le h)).2.2 (by linarith)
    · refine heven.resolve_right fun hstrict => ?_
      rcases hother y hy with h | h
      · have := (abs_sub_le_of_lt (h.trans_lt hlow)).2.1 heq.le
        exact hstrict.1 (by linarith)
      · have := (abs_sub_le_of_lt (hhigh.trans_le h)).1.1 heq.le
        exact hstrict.2 (by linarith)

/-- What lies between a magnitude and a number that it is nearest to is nearest to it, too. -/
theorem Nearest.of_between (hx : x.Nearest q) (hr : q ≤ r ∧ r ≤ x.units ∨ (x.units : ℚ) ≤ r ∧ r ≤ q) : x.Nearest r := by
  have hway : |x.units - q| = |x.units - r| + |r - q| := by
    rcases hr with ⟨hlow, hhigh⟩ | ⟨hlow, hhigh⟩
    · rw [abs_of_nonneg (by linarith), abs_of_nonneg (by linarith), abs_of_nonneg (by linarith)]
      ring
    · rw [abs_of_nonpos (by linarith), abs_of_nonpos (by linarith), abs_of_nonpos (by linarith)]
      ring
  have htriangle (y : Magnitude) := abs_sub_le (y.units : ℚ) r q
  refine ⟨fun y => ?_, fun y hy heq => hx.even y hy (le_antisymm ?_ (hx.closest y))⟩
  · have := hx.closest y
    linarith [htriangle y]
  · linarith [htriangle y]

/-! ### Positive finite magnitudes -/

/-- Neither zero nor infinite. -/
def IsPositive (x : Magnitude) : Prop := x.isZero = false ∧ x.isInfinite = false

/-- Between two magnitudes. -/
theorem IsPositive.beside (hx : x.IsPositive) :
    ∃ below above : Magnitude, below.code + 1 = x.code ∧ above.code = x.code + 1 := by
  obtain ⟨hzero, hfinite⟩ := hx
  rw [isZero, beq_eq_false_iff_ne] at hzero
  rw [isInfinite, beq_eq_false_iff_ne] at hfinite
  have hle := x.code_le
  exact ⟨⟨x.code - 1, by omega⟩, ⟨x.code + 1, by omega⟩, by dsimp only; omega, rfl⟩

theorem IsPositive.units_pos (hx : x.IsPositive) : 0 < x.units := by
  refine Nat.pos_of_ne_zero fun h => ?_
  have hzero := hx.1
  rw [isZero_iff.2 h] at hzero
  cases hzero

theorem significand_mod_two (x : Magnitude) : x.significand % 2 = x.code % 2 := by
  have hcode := x.code_eq
  rw [binade_eq] at hcode
  omega

theorem IsPositive.roundsTo_iff (hx : x.IsPositive) (num : Nat) {den : Nat} (hden : 0 < den) :
    x.roundsTo num den = true ↔ x.Nearest (num / (4 * den : ℕ)) := by
  obtain ⟨below, above, hbelow, habove⟩ := hx.beside
  have hpos : (0 : ℚ) < den := by exact_mod_cast hden
  have hlow : (below.units + x.units : ℚ) ≤ 2 * (num / (4 * den : ℕ)) ↔ 2 * (below.units + x.units) * den ≤ num := by
    rw [← mul_div_assoc, le_div_iff₀ (by positivity), ← Nat.cast_le (α := ℚ)]
    push_cast
    constructor <;> intro h <;> linarith
  have hhigh : 2 * (num / (4 * den : ℕ) : ℚ) ≤ x.units + above.units ↔ num ≤ 2 * (x.units + above.units) * den := by
    rw [← mul_div_assoc, div_le_iff₀ (by positivity), ← Nat.cast_le (α := ℚ)]
    push_cast
    constructor <;> intro h <;> linarith
  have hlow' : (below.units + x.units : ℚ) = 2 * (num / (4 * den : ℕ)) ↔ 2 * (below.units + x.units) * den = num := by
    rw [← mul_div_assoc, eq_div_iff (by positivity), ← Nat.cast_inj (R := ℚ)]
    push_cast
    constructor <;> intro h <;> linarith
  have hhigh' : 2 * (num / (4 * den : ℕ) : ℚ) = x.units + above.units ↔ num = 2 * (x.units + above.units) * den := by
    rw [← mul_div_assoc, div_eq_iff (by positivity), ← Nat.cast_inj (R := ℚ)]
    push_cast
    constructor <;> intro h <;> linarith
  rw [nearest_iff_between hbelow habove, hlow, hhigh, ne_eq, ne_eq, hlow', hhigh', roundsTo,
    midpoints_eq hbelow habove, significand_mod_two]
  dsimp only
  split_ifs with heven <;> rw [decide_eq_true_iff] <;> omega

/-! ### The leading digit -/

theorem timesBelowOne_of_le {units : Nat} (h : unitsInOne ≤ units) (fuel : Nat) : timesBelowOne units fuel = 0 := by
  cases fuel with
  | zero => rfl
  | succ fuel => rw [timesBelowOne, if_pos h]

theorem timesBelowOne_spec {units fuel : Nat} (hsmall : units < unitsInOne) (hfuel : unitsInOne ≤ units * 10 ^ fuel) :
    ∃ k, timesBelowOne units fuel = k + 1 ∧ units * 10 ^ k < unitsInOne ∧ unitsInOne ≤ units * 10 ^ (k + 1) := by
  induction fuel generalizing units with
  | zero =>
    rw [Nat.pow_zero, Nat.mul_one] at hfuel
    exact absurd hsmall (Nat.not_lt_of_le hfuel)
  | succ fuel ih =>
    rw [timesBelowOne, if_neg (Nat.not_le_of_lt hsmall)]
    by_cases hten : units * 10 < unitsInOne
    · have hfuel : unitsInOne ≤ units * 10 * 10 ^ fuel := by rwa [Nat.mul_assoc, ← Nat.pow_succ']
      obtain ⟨k, htimes, hlow, hhigh⟩ := ih hten hfuel
      rw [Nat.mul_assoc, ← Nat.pow_succ'] at hlow hhigh
      exact ⟨k + 1, by rw [htimes], hlow, hhigh⟩
    · have hten := Nat.le_of_not_lt hten
      refine ⟨0, by rw [timesBelowOne_of_le hten], ?_, ?_⟩
      · rwa [Nat.pow_zero, Nat.mul_one]
      · rwa [Nat.pow_one]

/-- A magnitude lies between two neighbouring powers of ten. -/
theorem IsPositive.leadingExponent_spec (hx : x.IsPositive) :
    (10 : ℚ) ^ x.leadingExponent * unitsInOne ≤ x.units ∧
      (x.units : ℚ) < 10 ^ (x.leadingExponent + 1) * unitsInOne := by
  have hone : (0 : ℚ) < unitsInOne := by exact_mod_cast unitsInOne_pos
  unfold leadingExponent
  split_ifs with hlarge
  · obtain ⟨k, hk⟩ : ∃ k, (Nat.toDigits 10 (x.units / unitsInOne)).length = k + 1 :=
      Nat.exists_eq_succ_of_ne_zero Nat.length_toDigits_pos.ne'
    have hquotient : 0 < x.units / unitsInOne := Nat.div_pos hlarge unitsInOne_pos
    have hhigh : x.units / unitsInOne < 10 ^ (k + 1) :=
      (Nat.length_toDigits_le_iff (by decide) (Nat.succ_pos k)).1 hk.le
    have hlow : 10 ^ k ≤ x.units / unitsInOne := by
      cases k with
      | zero => exact hquotient
      | succ k =>
        refine Nat.le_of_not_lt fun hlt => ?_
        have := (Nat.length_toDigits_le_iff (by decide) (Nat.succ_pos k)).2 hlt
        omega
    rw [hk, Nat.cast_add, Nat.cast_one, add_sub_cancel_right, zpow_natCast]
    constructor
    · exact_mod_cast (Nat.le_div_iff_mul_le unitsInOne_pos).1 hlow
    · exact_mod_cast (Nat.div_lt_iff_lt_mul unitsInOne_pos).1 hhigh
  · have hreach : unitsInOne ≤ x.units * 10 ^ 324 := by
      have htiny : unitsInOne ≤ 10 ^ 324 := by decide +kernel
      exact htiny.trans (Nat.le_mul_of_pos_left _ hx.units_pos)
    obtain ⟨k, htimes, hlow, hhigh⟩ := timesBelowOne_spec (Nat.lt_of_not_le hlarge) hreach
    have hlow : (x.units : ℚ) * 10 ^ k < unitsInOne := by exact_mod_cast hlow
    have hhigh : (unitsInOne : ℚ) ≤ x.units * 10 ^ (k + 1) := by exact_mod_cast hhigh
    have hpow : (-((k + 1 : ℕ) : ℤ) + 1 : ℤ) = -(k : ℤ) := by
      push_cast
      ring
    rw [htimes, hpow, zpow_neg, zpow_neg, zpow_natCast, zpow_natCast]
    constructor
    · rw [inv_mul_le_iff₀ (by positivity)]
      linarith
    · rw [lt_inv_mul_iff₀ (by positivity)]
      linarith

/-! ### Decimals on a grid -/

theorem Nearest.toward (hx : x.Nearest q) (hr : q ≤ r ∧ r ≤ x.units ∨ (x.units : ℚ) ≤ r ∧ r ≤ q) :
    x.Nearest r ∧ |r - x.units| ≤ |q - x.units| := by
  refine ⟨hx.of_between hr, ?_⟩
  rcases hr with ⟨hlow, hhigh⟩ | ⟨hlow, hhigh⟩
  · rw [abs_of_nonpos (by linarith), abs_of_nonpos (by linarith)]
    linarith
  · rw [abs_of_nonneg (by linarith), abs_of_nonneg (by linarith)]
    linarith

theorem units_le_units_of_le {m n : ℕ} (h : m ≤ n) (e : ℤ) : Decimal.units ⟨m, e⟩ ≤ Decimal.units ⟨n, e⟩ := by
  have hle : (m : ℚ) ≤ n := by exact_mod_cast h
  unfold Decimal.units Decimal.value
  dsimp only
  gcongr

/-- A decimal on the grid of multiples of a power of ten that reads back and is nearest of those. -/
structure OnGrid (x : Magnitude) (e : ℤ) (d : Decimal) : Prop where
  exponent : d.exponent = e
  nearest : x.Nearest d.units
  closest : ∀ n : ℕ, x.Nearest (Decimal.units ⟨n, e⟩) → |d.units - x.units| ≤ |Decimal.units ⟨n, e⟩ - x.units|
  /-- It is one of the two beside the magnitude. -/
  digits_le : ∃ n : ℕ, Decimal.units ⟨n, e⟩ ≤ x.units ∧ d.digits ≤ n + 1

/-- The points of a grid, in parts of a quarter of a unit, of which a magnitude is made up as well. -/
theorem onGrid?_eq (x : Magnitude) (exponent : ℤ) :
    ∃ step scale, 0 < step ∧ 0 < scale ∧
      (∀ n : ℕ, Decimal.units ⟨n, exponent⟩ = (n * step : ℕ) / (4 * scale : ℕ)) ∧
      x.onGrid? exponent =
        let value := 4 * x.units * scale
        let n := value / step
        match x.roundsTo (n * step) scale, x.roundsTo ((n + 1) * step) scale with
        | true, true => some ⟨if value - n * step < (n + 1) * step - value then n else n + 1, exponent⟩
        | true, false => some ⟨n, exponent⟩
        | false, true => some ⟨n + 1, exponent⟩
        | false, false => none := by
  cases exponent with
  | ofNat e =>
    refine ⟨4 * unitsInOne * 10 ^ e, 1, by have := unitsInOne_pos; positivity, Nat.one_pos, fun n => ?_, rfl⟩
    rw [Decimal.units, Decimal.value, Int.ofNat_eq_natCast, zpow_natCast]
    push_cast
    ring
  | negSucc e =>
    refine ⟨4 * unitsInOne, 10 ^ (e + 1), by have := unitsInOne_pos; positivity, by positivity, fun n => ?_, rfl⟩
    rw [Decimal.units, Decimal.value, zpow_negSucc]
    push_cast
    field_simp

section
variable {e : ℤ} {n : ℕ}

/-- Beside a magnitude lie two points of a grid, and what reads back is no nearer than one of them. -/
theorem Nearest.beside (hlow : Decimal.units ⟨n, e⟩ ≤ x.units) (hhigh : x.units ≤ Decimal.units ⟨n + 1, e⟩) {k : ℕ}
    (hk : x.Nearest (Decimal.units ⟨k, e⟩)) :
    x.Nearest (Decimal.units ⟨n, e⟩) ∧ |Decimal.units ⟨n, e⟩ - x.units| ≤ |Decimal.units ⟨k, e⟩ - x.units| ∨
      x.Nearest (Decimal.units ⟨n + 1, e⟩) ∧
        |Decimal.units ⟨n + 1, e⟩ - x.units| ≤ |Decimal.units ⟨k, e⟩ - x.units| := by
  rcases Nat.lt_or_ge n k with hlt | hge
  · exact .inr (hk.toward (.inr ⟨hhigh, units_le_units_of_le hlt _⟩))
  · exact .inl (hk.toward (.inl ⟨units_le_units_of_le hge _, hlow⟩))

theorem onGrid_below (hlow : Decimal.units ⟨n, e⟩ ≤ x.units) (hhigh : x.units ≤ Decimal.units ⟨n + 1, e⟩)
    (hn : x.Nearest (Decimal.units ⟨n, e⟩)) (hbest : x.Nearest (Decimal.units ⟨n + 1, e⟩) →
      |Decimal.units ⟨n, e⟩ - x.units| ≤ |Decimal.units ⟨n + 1, e⟩ - x.units|) : x.OnGrid e ⟨n, e⟩ := by
  refine ⟨rfl, hn, fun k hk => ?_, n, hlow, Nat.le_succ n⟩
  rcases hk.beside hlow hhigh with ⟨-, h⟩ | ⟨hup, h⟩
  · exact h
  · exact (hbest hup).trans h

theorem onGrid_above (hlow : Decimal.units ⟨n, e⟩ ≤ x.units) (hhigh : x.units ≤ Decimal.units ⟨n + 1, e⟩)
    (hn : x.Nearest (Decimal.units ⟨n + 1, e⟩)) (hbest : x.Nearest (Decimal.units ⟨n, e⟩) →
      |Decimal.units ⟨n + 1, e⟩ - x.units| ≤ |Decimal.units ⟨n, e⟩ - x.units|) : x.OnGrid e ⟨n + 1, e⟩ := by
  refine ⟨rfl, hn, fun k hk => ?_, n, hlow, le_rfl⟩
  rcases hk.beside hlow hhigh with ⟨hdown, h⟩ | ⟨-, h⟩
  · exact (hbest hdown).trans h
  · exact h

end

theorem IsPositive.onGrid?_spec (hx : x.IsPositive) (exponent : ℤ) :
    (∀ d, x.onGrid? exponent = some d → x.OnGrid exponent d) ∧
      (x.onGrid? exponent = none → ∀ n : ℕ, ¬ x.Nearest (Decimal.units ⟨n, exponent⟩)) := by
  obtain ⟨step, scale, hstep, hscale, hpoint, hgrid⟩ := onGrid?_eq x exponent
  have hpos : (0 : ℚ) < (4 * scale : ℕ) := by exact_mod_cast Nat.mul_pos four_pos hscale
  have hunits : (x.units : ℚ) = (4 * x.units * scale : ℕ) / (4 * scale : ℕ) := by
    rw [eq_div_iff hpos.ne']
    push_cast
    ring
  have hrounds (n : ℕ) : x.roundsTo (n * step) scale = true ↔ x.Nearest (Decimal.units ⟨n, exponent⟩) := by
    rw [hpoint, hx.roundsTo_iff _ hscale]
  rw [hgrid]
  dsimp only
  -- the two points beside the magnitude
  have hbelow : 4 * x.units * scale / step * step ≤ 4 * x.units * scale := Nat.div_mul_le_self _ _
  have habove : 4 * x.units * scale < (4 * x.units * scale / step + 1) * step :=
    Nat.lt_mul_of_div_lt (Nat.lt_succ_self _) hstep
  generalize 4 * x.units * scale = value at *
  generalize value / step = n at *
  have hlow : Decimal.units ⟨n, exponent⟩ ≤ x.units := by
    rw [hpoint, hunits]
    gcongr
  have hhigh : x.units ≤ Decimal.units ⟨n + 1, exponent⟩ := by
    rw [hpoint, hunits]
    gcongr
  have hcloser : value - n * step < (n + 1) * step - value ↔
      |Decimal.units ⟨n, exponent⟩ - x.units| < |Decimal.units ⟨n + 1, exponent⟩ - x.units| := by
    rw [abs_of_nonpos (sub_nonpos.2 hlow), abs_of_nonneg (sub_nonneg.2 hhigh), neg_sub, hpoint, hpoint, hunits,
      ← sub_div, ← sub_div, div_lt_div_iff_of_pos_right hpos, ← Nat.cast_sub hbelow, ← Nat.cast_sub habove.le,
      Nat.cast_lt]
  have hn := hrounds n
  have hn' := hrounds (n + 1)
  cases hdown : x.roundsTo (n * step) scale <;> cases hup : x.roundsTo ((n + 1) * step) scale <;>
    rw [hdown] at hn <;> rw [hup] at hn' <;> dsimp only
  · refine ⟨nofun, fun _ k hk => ?_⟩
    rcases hk.beside hlow hhigh with ⟨h, -⟩ | ⟨h, -⟩
    · exact absurd (hn.2 h) Bool.false_ne_true
    · exact absurd (hn'.2 h) Bool.false_ne_true
  · refine ⟨?_, nofun⟩
    rintro _ ⟨⟩
    exact onGrid_above hlow hhigh (hn'.1 rfl) fun h => absurd (hn.2 h) Bool.false_ne_true
  · refine ⟨?_, nofun⟩
    rintro _ ⟨⟩
    exact onGrid_below hlow hhigh (hn.1 rfl) fun h => absurd (hn'.2 h) Bool.false_ne_true
  · refine ⟨?_, nofun⟩
    rintro _ ⟨⟩
    split_ifs with hless
    · exact onGrid_below hlow hhigh (hn.1 rfl) fun _ => (hcloser.1 hless).le
    · exact onGrid_above hlow hhigh (hn'.1 rfl) fun _ => not_lt.1 fun h => hless (hcloser.2 h)

/-- Where the points of a grid are closer together than the midpoints, one of them reads back. -/
theorem IsPositive.exists_onGrid (hx : x.IsPositive) {e : ℤ} (h : (10 : ℚ) ^ e * unitsInOne * (2 * binade) ≤ x.units) :
    ∃ d, x.onGrid? e = some d := by
  refine Option.ne_none_iff_exists'.1 fun hnone => ?_
  have hnot := (hx.onGrid?_spec e).2 hnone
  obtain ⟨below, above, hbelow, habove⟩ := hx.beside
  have hone : (0 : ℚ) < unitsInOne := by exact_mod_cast unitsInOne_pos
  have hstep : (0 : ℚ) < 10 ^ e * unitsInOne := by positivity
  have hpoint (n : ℕ) : Decimal.units ⟨n, e⟩ = n * (10 ^ e * unitsInOne) := mul_assoc _ _ _
  -- the two points beside the magnitude
  obtain ⟨n, hlow, hhigh⟩ : ∃ n : ℕ, Decimal.units ⟨n, e⟩ ≤ x.units ∧ x.units < Decimal.units ⟨n + 1, e⟩ := by
    refine ⟨⌊(x.units : ℚ) / (10 ^ e * unitsInOne)⌋₊, ?_, ?_⟩
    · rw [hpoint, ← le_div_iff₀ hstep]
      exact Nat.floor_le (by positivity)
    · rw [hpoint, ← div_lt_iff₀ hstep]
      exact_mod_cast Nat.lt_floor_add_one _
  have hlow' : (below.units : ℚ) < x.units := by exact_mod_cast units_lt_units (x := below) (y := x) (by omega)
  have hhigh' : (x.units : ℚ) < above.units := by exact_mod_cast units_lt_units (x := x) (y := above) (by omega)
  have hdown : 2 * Decimal.units ⟨n, e⟩ ≤ below.units + x.units := by
    refine le_of_not_gt fun hlt => hnot n ((nearest_iff_between hbelow habove).2 ?_)
    exact ⟨⟨hlt.le, by linarith⟩, .inr ⟨hlt.ne, by linarith⟩⟩
  have hup : (x.units + above.units : ℚ) ≤ 2 * Decimal.units ⟨n + 1, e⟩ := by
    refine le_of_not_gt fun hlt => hnot (n + 1) ((nearest_iff_between hbelow habove).2 ?_)
    exact ⟨⟨by linarith, hlt.le⟩, .inr ⟨by linarith, hlt.ne⟩⟩
  have hgap : (x.units : ℚ) < binade * (above.units - below.units) := by
    have hle : below.units ≤ above.units := units_le_units (by omega)
    rw [← Nat.cast_sub hle]
    exact_mod_cast units_lt_gap hbelow habove
  have hnext : Decimal.units ⟨n + 1, e⟩ = Decimal.units ⟨n, e⟩ + 10 ^ e * unitsInOne := by
    rw [hpoint, hpoint]
    push_cast
    ring
  have hbinade : (0 : ℚ) < binade := by exact_mod_cast (by decide : 0 < binade)
  have hapart : (above.units : ℚ) - below.units ≤ 2 * (10 ^ e * unitsInOne) := by linarith
  have := mul_le_mul_of_nonneg_left hapart hbinade.le
  linarith

end Magnitude

/-! ### Significant digits -/

namespace Decimal

open Magnitude

/-- How many digits a decimal has but for the zeros at their end. -/
def digitCount (d : Decimal) : ℕ := d.significant.1.length

theorem naturalOf_toDigits (n : ℕ) : naturalOf (Nat.toDigits 10 n) = n := by
  have hdigits := Nat.ofDigitChars_toDigits (b := 10) (n := n) (by decide) (by decide)
  rw [naturalOf_eq_foldl]
  rw [Nat.ofDigitChars] at hdigits
  simpa only [Nat.mul_comm, digitValue] using hdigits

theorem isDigit_of_mem_toDigits {n : ℕ} {c : Char} (h : c ∈ Nat.toDigits 10 n) : c.isDigit = true :=
  Nat.isDigit_of_mem_toDigits (by decide) (by decide) h

theorem valueIn_toDigits (n : ℕ) : Number.valueIn 10 (Nat.toDigits 10 n) = n := by
  rw [← naturalOf_eq_valueIn fun _ => isDigit_of_mem_toDigits, naturalOf_toDigits]

theorem valueIn_append (xs ys : List Char) :
    Number.valueIn 10 (xs ++ ys) = Number.valueIn 10 xs * 10 ^ ys.length + Number.valueIn 10 ys := by
  simp only [Number.valueIn, List.reverse_append, List.map_append, Nat.ofDigits_append, List.length_map,
    List.length_reverse]
  ring

theorem valueIn_zeros (n : ℕ) : Number.valueIn 10 (List.replicate n '0') = 0 := by
  induction n with
  | zero => rfl
  | succ n ih =>
    rw [List.replicate_succ', valueIn_append, ih]
    rfl

/-- The zeros at the end of digits. -/
theorem exists_zeros (digits : List Char) : ∃ n, digits = trimZeros digits ++ List.replicate n '0' := by
  refine ⟨(digits.reverse.takeWhile (· == '0')).length, ?_⟩
  have hzeros : digits.reverse.takeWhile (· == '0') =
      List.replicate (digits.reverse.takeWhile (· == '0')).length '0' := by
    refine List.eq_replicate_iff.2 ⟨rfl, fun c hc => ?_⟩
    exact beq_iff_eq.1 (List.all_eq_true.1 List.all_takeWhile c hc)
  have hsplit := congrArg List.reverse (List.takeWhile_append_dropWhile (p := (· == '0')) (l := digits.reverse))
  rw [List.reverse_append, List.reverse_reverse] at hsplit
  rw [trimZeros]
  nth_rewrite 1 [← hsplit]
  rw [hzeros, List.reverse_replicate, List.length_replicate]

/-- The significant digits with their exponent are the decimal. -/
theorem value_significant (d : Decimal) :
    d.value = Number.valueIn 10 d.significant.1 * 10 ^ (d.significant.2 - d.significant.1.length) := by
  obtain ⟨n, hn⟩ := exists_zeros (Nat.toDigits 10 d.digits)
  have hexponent : d.significant.2 - d.significant.1.length = d.exponent + n := by
    have hlength := congrArg List.length hn
    rw [List.length_append, List.length_replicate] at hlength
    simp only [significant]
    omega
  have hdigits : d.digits = Number.valueIn 10 d.significant.1 * 10 ^ n := by
    nth_rewrite 1 [← valueIn_toDigits d.digits, hn]
    rw [valueIn_append, valueIn_zeros, List.length_replicate, Nat.add_zero]
    rfl
  rw [hexponent, value, zpow_add₀ (by norm_num), zpow_natCast]
  nth_rewrite 1 [hdigits]
  push_cast
  ring

theorem isDigit_of_mem_significant {d : Decimal} {c : Char} (h : c ∈ d.significant.1) : c.isDigit = true := by
  obtain ⟨n, hn⟩ := exists_zeros (Nat.toDigits 10 d.digits)
  exact isDigit_of_mem_toDigits (hn ▸ List.mem_append_left _ h)

theorem length_trimZeros_le (digits : List Char) : (trimZeros digits).length ≤ digits.length := by
  obtain ⟨n, hn⟩ := exists_zeros digits
  have hlength := congrArg List.length hn
  rw [List.length_append] at hlength
  omega

theorem trimZeros_concat_zero (digits : List Char) : trimZeros (digits ++ ['0']) = trimZeros digits := by
  rw [trimZeros, trimZeros, List.reverse_append]
  rfl

/-- A power of ten counts as one digit fewer than it has. -/
theorem digitCount_le {d : Decimal} {n : ℕ} (hn : 0 < n) (h : d.digits ≤ 10 ^ n) : d.digitCount ≤ n := by
  have hcount : d.digitCount = (trimZeros (Nat.toDigits 10 d.digits)).length := rfl
  rw [hcount]
  rcases Nat.lt_or_eq_of_le h with hlt | heq
  · exact (length_trimZeros_le _).trans ((Nat.length_toDigits_le_iff (by decide) hn).2 hlt)
  · obtain ⟨m, rfl⟩ := Nat.exists_eq_succ_of_ne_zero hn.ne'
    have hten : 10 ≤ d.digits := by
      rw [heq]
      exact Nat.le_self_pow (Nat.succ_ne_zero m) 10
    have hdiv : d.digits / 10 = 10 ^ m := by rw [heq, Nat.pow_succ, Nat.mul_div_cancel _ (by decide)]
    have hmod : d.digits % 10 = 0 := by rw [heq, Nat.pow_succ, Nat.mul_mod_left]
    have hdigits : Nat.toDigits 10 d.digits = Nat.toDigits 10 (10 ^ m) ++ ['0'] := by
      rw [Nat.toDigits_of_base_le (by decide) hten, hdiv, hmod]
      rfl
    rw [hdigits, trimZeros_concat_zero]
    refine (length_trimZeros_le _).trans ((Nat.length_toDigits_le_iff (by decide) (Nat.succ_pos m)).2 ?_)
    exact Nat.pow_lt_pow_succ (by decide)

/-- A decimal with few digits is on every fine grid, or it is smaller than the power of ten that has as many digits
there. -/
theorem units_cases (d : Decimal) (leading : ℤ) {n : ℕ} (h : d.digitCount ≤ n + 1) :
    (∃ k : ℕ, d.units = units ⟨k, leading - n⟩) ∨ d.units < 10 ^ leading * unitsInOne := by
  have hone : (0 : ℚ) < unitsInOne := by exact_mod_cast unitsInOne_pos
  obtain ⟨g, hg⟩ : ∃ g, g = d.significant.2 - d.significant.1.length := ⟨_, rfl⟩
  have hvalue := d.value_significant
  rw [← hg] at hvalue
  rw [units, hvalue]
  rcases le_or_gt (leading - n) g with hle | hlt
  · left
    obtain ⟨j, hj⟩ := Int.eq_ofNat_of_zero_le (sub_nonneg.2 hle)
    have hsplit : g = j + (leading - n) := by omega
    refine ⟨Number.valueIn 10 d.significant.1 * 10 ^ j, ?_⟩
    rw [units, value, hsplit, zpow_add₀ (by norm_num), zpow_natCast]
    push_cast
    ring
  · right
    have hdigits : Number.valueIn 10 d.significant.1 < 10 ^ (n + 1) :=
      (valueIn_lt fun _ => isDigit_of_mem_significant).trans_le (Nat.pow_le_pow_right (by decide) h)
    have hdigits : (Number.valueIn 10 d.significant.1 : ℚ) < 10 ^ (n + 1) := by exact_mod_cast hdigits
    refine mul_lt_mul_of_pos_right ?_ hone
    calc
      (Number.valueIn 10 d.significant.1 : ℚ) * 10 ^ g < 10 ^ (n + 1) * 10 ^ g :=
        mul_lt_mul_of_pos_right hdigits (by positivity)
      _ = 10 ^ ((n + 1 : ℕ) + g) := by rw [zpow_add₀ (by norm_num), zpow_natCast]
      _ ≤ 10 ^ leading := zpow_le_zpow_right₀ (by norm_num) (by push_cast; omega)

end Decimal

namespace Magnitude
variable {x : Magnitude}

/-- Zero does not read back as another magnitude. -/
theorem IsPositive.digitCount_pos (hx : x.IsPositive) {d : Decimal} (hd : x.Nearest d.units) : 0 < d.digitCount := by
  refine Nat.pos_of_ne_zero fun hnone => ?_
  have hunits : d.units = zero.units := by
    rw [Decimal.units, d.value_significant, List.eq_nil_of_length_eq_zero hnone]
    simp [Number.valueIn, units, significand, zero]
  have hpos := hx.units_pos
  rw [hd.eq_of_units hunits] at hpos
  exact absurd hpos (by decide)

/-- For a decimal with few digits that reads back there is one on the grid of that many digits that is as near. -/
theorem IsPositive.exists_near (hx : x.IsPositive) {d : Decimal} (hd : x.Nearest d.units) {n : ℕ}
    (hcount : d.digitCount ≤ n + 1) :
    ∃ k : ℕ, x.Nearest (Decimal.units ⟨k, x.leadingExponent - n⟩) ∧
      |Decimal.units ⟨k, x.leadingExponent - n⟩ - x.units| ≤ |d.units - x.units| := by
  rcases d.units_cases x.leadingExponent hcount with ⟨k, hk⟩ | hsmall
  · rw [hk] at hd ⊢
    exact ⟨k, hd, le_rfl⟩
  · -- the power of ten is between the decimal and the magnitude
    have hpower : Decimal.units ⟨10 ^ n, x.leadingExponent - n⟩ = 10 ^ x.leadingExponent * unitsInOne := by
      have hsum : (10 : ℚ) ^ n * 10 ^ (x.leadingExponent - n) = 10 ^ x.leadingExponent := by
        rw [← zpow_natCast, ← zpow_add₀ (by norm_num), add_sub_cancel]
      rw [Decimal.units, Decimal.value]
      push_cast
      rw [hsum]
    refine ⟨10 ^ n, hd.toward (.inl ?_)⟩
    rw [hpower]
    exact ⟨hsmall.le, hx.leadingExponent_spec.1⟩

/-- What the shortest decimal of a magnitude is. -/
structure IsShortest (x : Magnitude) (d : Decimal) : Prop where
  readsBack : x.Nearest d.units
  /-- No decimal with fewer digits reads back. -/
  fewest : ∀ other : Decimal, x.Nearest other.units → d.digitCount ≤ other.digitCount
  /-- Of those with as many digits none is nearer. -/
  closest : ∀ other : Decimal, x.Nearest other.units → other.digitCount = d.digitCount →
    |d.units - x.units| ≤ |other.units - x.units|

/-- Seventeen digits are enough. -/
theorem IsPositive.exists_seventeen (hx : x.IsPositive) : ∃ d, x.onGrid? (x.leadingExponent - (16 : ℕ)) = some d := by
  refine hx.exists_onGrid (le_trans ?_ hx.leadingExponent_spec.1)
  have hone : (0 : ℚ) < unitsInOne := by exact_mod_cast unitsInOne_pos
  have hten : (2 * binade : ℚ) ≤ 10 ^ ((16 : ℕ) : ℤ) := by
    rw [binade_eq, zpow_natCast]
    norm_num
  have hpow : (10 : ℚ) ^ (x.leadingExponent - (16 : ℕ)) * (2 * binade) ≤ 10 ^ x.leadingExponent := by
    rw [zpow_sub₀ (by norm_num), div_mul_eq_mul_div, div_le_iff₀ (by positivity)]
    gcongr
  calc
    (10 : ℚ) ^ (x.leadingExponent - (16 : ℕ)) * unitsInOne * (2 * binade) =
        10 ^ (x.leadingExponent - (16 : ℕ)) * (2 * binade) * unitsInOne := by ring
    _ ≤ 10 ^ x.leadingExponent * unitsInOne := mul_le_mul_of_nonneg_right hpow hone.le

/-- The coarsest grid that holds a decimal that reads back, and the decimal on it. -/
theorem IsPositive.shortest_cases (hx : x.IsPositive) :
    ∃ n : ℕ, x.onGrid? (x.leadingExponent - n) = some x.shortest ∧
      ∀ m < n, x.onGrid? (x.leadingExponent - (m : ℕ)) = none := by
  obtain ⟨seventeen, hseventeen⟩ := hx.exists_seventeen
  let grid (n : ℕ) : Option Decimal := x.onGrid? (x.leadingExponent - n)
  have hshortest : x.shortest = ((List.range 17).findSome? grid).getD ⟨0, 0⟩ := by
    rw [shortest, List.findSome?_map]
    rfl
  cases hfind : (List.range 17).findSome? grid with
  | none =>
    have hnone := List.findSome?_eq_none_iff.1 hfind 16 (by decide)
    exact absurd (hseventeen.symm.trans hnone) (Option.some_ne_none _)
  | some d =>
    rw [hfind, Option.getD_some] at hshortest
    obtain ⟨before, n, after, hrange, hn, hbefore⟩ := List.findSome?_eq_some_iff.1 hfind
    have hsplit : before = List.range' 0 before.length ∧ n = before.length := by
      rw [List.range_eq_range', List.range'_eq_append_iff] at hrange
      obtain ⟨k, -, hk, hrest⟩ := hrange
      have hlength : before.length = k := by rw [hk, List.length_range']
      have hhead := congrArg List.head? hrest
      rw [List.head?_cons, List.head?_range'] at hhead
      split at hhead
      · cases hhead
      · rw [hlength]
        exact ⟨hk, by simpa using Option.some.inj hhead⟩
    refine ⟨n, hshortest ▸ hn, fun m hm => hbefore m ?_⟩
    rw [hsplit.1, List.mem_range'_1]
    omega

/-- The shortest decimal reads back, none with fewer digits does, and of those with as many digits none is nearer. -/
theorem IsPositive.isShortest (hx : x.IsPositive) : x.IsShortest x.shortest := by
  obtain ⟨n, hn, hcoarser⟩ := hx.shortest_cases
  have hd := (hx.onGrid?_spec _).1 _ hn
  have hcount : x.shortest.digitCount ≤ n + 1 := by
    obtain ⟨k, hk, hdigits⟩ := hd.digits_le
    refine Decimal.digitCount_le (Nat.succ_pos n) (hdigits.trans ?_)
    have hone : (0 : ℚ) < unitsInOne := by exact_mod_cast unitsInOne_pos
    have hlt := hk.trans_lt hx.leadingExponent_spec.2
    have hsum : (10 : ℚ) ^ (x.leadingExponent + 1) = 10 ^ (n + 1) * 10 ^ (x.leadingExponent - n) := by
      rw [← zpow_natCast, ← zpow_add₀ (by norm_num)]
      congr 1
      push_cast
      ring
    rw [Decimal.units, mul_lt_mul_iff_left₀ hone, Decimal.value, hsum, mul_lt_mul_iff_left₀ (by positivity)] at hlt
    exact Nat.succ_le_of_lt (by exact_mod_cast hlt)
  have hfewest : ∀ other : Decimal, x.Nearest other.units → n + 1 ≤ other.digitCount := by
    intro other hother
    by_contra hlt
    have hpos := hx.digitCount_pos hother
    obtain ⟨m, hm⟩ := Nat.exists_eq_succ_of_ne_zero hpos.ne'
    obtain ⟨k, hk, -⟩ := hx.exists_near hother hm.le
    exact (hx.onGrid?_spec _).2 (hcoarser m (by omega)) k hk
  refine ⟨hd.nearest, fun other hother => hcount.trans (hfewest other hother), fun other hother hsame => ?_⟩
  obtain ⟨k, hk, hcloser⟩ := hx.exists_near hother (hsame.trans_le hcount)
  exact (hd.closest k hk).trans hcloser

end Magnitude
end LatentExpr
