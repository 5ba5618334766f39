import LatentExpr.Proofs.Number.Layout
import LatentExpr.Value.Convert

/-!
Numbers and their texts. A numeral is one token in every source, and it is read alike as a constant and from a string.
The text of a positive number is the layout of its shortest decimal, so the number is what is read from it, zero without
its sign (`Number.text_round_trip`), and different numbers name different properties.
-/
namespace LatentExpr

open Lexeme Text

-- a power of two with so large an exponent is not to be computed
attribute [local irreducible] Magnitude.unitsInOne

/-! ### Numerals are tokens -/

namespace Numeral
variable {whole : List Char} {fraction : Option (List Char)} {exponent : Option Exponent}

theorem exponent_text (hexponent : ∀ e ∈ exponent, e.Valid) :
    Lexeme.exponent (exponentText exponent) = (exponentText exponent, []) := by
  cases exponent with
  | none => rfl
  | some e =>
    obtain ⟨hmarker, hsign, hdigits⟩ := hexponent e rfl
    have hrun : run Char.isDigit e.digits = (e.digits, []) := by
      have hend : Halts Char.isDigit [] := nofun
      simpa using run_again hdigits hend
    have hsigned : Lexeme.sign (e.sign ++ e.digits) = (e.sign, e.digits) := by
      rcases hsign with hsign | hsign | hsign <;> rw [hsign]
      · refine sign_of_halts fun c hc => decide_eq_false fun h => ?_
        have hdigit := hdigits c (List.mem_of_mem_head? hc)
        rcases h with rfl | rfl <;> cases hdigit
      · rfl
      · rfl
    rw [exponentText, Exponent.text, List.cons_append, Lexeme.exponent, if_pos hmarker, hsigned]
    dsimp only
    rw [hrun]
    rfl

/-- A numeral is taken whole where a number is scanned. -/
theorem decimal_text (h : (decimal whole fraction exponent).Valid) :
    Lexeme.decimal (decimal whole fraction exponent).text = ((decimal whole fraction exponent).text, []) := by
  obtain ⟨hdigits, hexponent, -, -⟩ := h
  obtain ⟨hwhole, hfraction⟩ := List.forall_mem_append.1 hdigits
  obtain ⟨hpoint, hbehind⟩ := fraction_text hfraction hexponent
  have hrun : run Char.isDigit (decimal whole fraction exponent).text =
      (whole, fractionText fraction ++ exponentText exponent) := by
    rw [text, List.append_assoc]
    exact run_again hwhole (halts_fractionText.append (halts_exponentText hexponent))
  rw [Lexeme.decimal, hrun]
  dsimp only
  rw [hbehind, ← fractionText_scan, hpoint, exponent_text hexponent]
  rfl

theorem lexeme?_text (h : (decimal whole fraction exponent).Valid) (m : Matcher) :
    lexeme? m (decimal whole fraction exponent).text =
      some (.number (String.ofList (decimal whole fraction exponent).text), []) := by
  have hdecimal := decimal_text h
  have hunmarked (rest : List Char) (heq : (decimal whole fraction exponent).text = '0' :: rest) : Unmarked rest :=
    unmarked_of_valid h heq
  have hbegins := beginsDecimal_text h
  generalize (decimal whole fraction exponent).text = start at *
  obtain ⟨c, rest, hdigit, rfl | rfl⟩ := hbegins
  · by_cases hzero : c = '0'
    · subst hzero
      rw [lexeme?_zero, fromZero_of_unmarked (hunmarked rest rfl), hdecimal]
    · rw [lexeme?_decimal hzero (by rw [hdigit, Bool.true_or]), hdecimal]
  · rw [lexeme?_decimal (by decide) (by simp [hdigit]), hdecimal]

/-- Nothing is skipped before a numeral. -/
theorem skipText_text (h : (decimal whole fraction exponent).Valid) :
    skipText (decimal whole fraction exponent).text = some (decimal whole fraction exponent).text := by
  obtain ⟨c, rest, hdigit, heq | heq⟩ := beginsDecimal_text h
  · rw [heq]
    exact skipText_of_isDigit hdigit rest
  · rw [heq]
    exact skipText_cons (by decide) (by decide)

theorem reads_text (h : (decimal whole fraction exponent).Valid) (m : Matcher) :
    Reads m (decimal whole fraction exponent).text
      [.number (String.ofList (decimal whole fraction exponent).text)] :=
  .next (skipText_text h) (lexeme?_text h m) (.done (by rw [skipText]))

/-! ### Numerals in strings -/

theorem isDecimalChar_of_isDigit {c : Char} (h : c.isDigit = true) : isDecimalChar c = true := by
  simp [isDecimalChar, h]

theorem isDecimalChar_of_mem_text (h : (decimal whole fraction exponent).Valid) :
    ∀ c ∈ (decimal whole fraction exponent).text, isDecimalChar c = true := by
  obtain ⟨hdigits, hexponent, -, -⟩ := h
  obtain ⟨hwhole, hfraction⟩ := List.forall_mem_append.1 hdigits
  intro c hc
  simp only [text, List.mem_append] at hc
  rcases hc with (hc | hc) | hc
  · exact isDecimalChar_of_isDigit (hwhole c hc)
  · cases fraction with
    | none => cases hc
    | some digits =>
      rcases List.mem_cons.1 hc with rfl | hc
      · rfl
      · exact isDecimalChar_of_isDigit (hfraction c hc)
  · cases exponent with
    | none => cases hc
    | some e =>
      obtain ⟨hmarker, hsign, hdigits⟩ := hexponent e rfl
      simp only [exponentText, Exponent.text, List.mem_cons, List.mem_append, List.cons_append] at hc
      rcases hc with rfl | hc | hc
      · rcases hmarker with h | h <;> rw [h] <;> rfl
      · rcases hsign with h | h | h <;> rw [h] at hc
        · cases hc
        · rw [List.mem_singleton.1 hc]
          rfl
        · rw [List.mem_singleton.1 hc]
          rfl
      · exact isDecimalChar_of_isDigit (hdigits c hc)

end Numeral

namespace Number

theorem isNumberPadding_of_isDecimalChar {c : Char} (h : isDecimalChar c = true) : isNumberPadding c = false := by
  have hvisible : 0x20 < c.toNat ∧ c.toNat < 0x7F := by
    simp only [isDecimalChar, Bool.or_eq_true, beq_iff_eq] at h
    rcases h with ((((h | rfl) | rfl) | rfl) | rfl) | rfl
    · rw [Char.isDigit, Bool.and_eq_true, decide_eq_true_eq, decide_eq_true_eq] at h
      have hge : 48 ≤ c.toNat := UInt32.le_iff_toNat_le.1 h.1
      have hle : c.toNat ≤ 57 := UInt32.le_iff_toNat_le.1 h.2
      omega
    all_goals decide
  have hblank := isBlank_of_visible hvisible.1 hvisible.2
  rw [isBlank, Bool.or_eq_false_iff] at hblank
  rw [isNumberPadding, hblank.2, Bool.false_or, beq_eq_false_iff_ne]
  rintro rfl
  exact absurd hvisible.2 (by decide)

theorem stripEnds_of_forall {p : Char → Bool} {text : List Char} (h : ∀ c ∈ text, p c = false) :
    stripEnds p text = text := by
  have hdrop : ∀ text : List Char, (∀ c ∈ text, p c = false) → text.dropWhile p = text := by
    intro text h
    cases text with
    | nil => rfl
    | cons c rest => rw [List.dropWhile_cons, h c List.mem_cons_self, if_neg Bool.false_ne_true]
  rw [stripEnds, hdrop text h, hdrop _ fun c hc => h c (List.mem_reverse.1 hc), List.reverse_reverse]

/-- What is made of the characters of decimals is read as a decimal. -/
theorem ofTrimmed_of_decimalChars {text : List Char} (hne : text ≠ []) (h : ∀ c ∈ text, isDecimalChar c = true) :
    ofTrimmed text = (read? text).getD .nan := by
  have hletter : ∀ {mark : Char} {more : List Char}, text = '0' :: mark :: more → isDecimalChar mark = true :=
    fun heq => h _ (heq ▸ List.mem_cons_of_mem _ List.mem_cons_self)
  unfold ofTrimmed
  split
  · exact absurd rfl hne
  iterate 6 exact absurd (hletter rfl) (by decide)
  · rename_i first rest _ _ _ _ _ _
    dsimp only
    have hunsigned : ∀ c ∈ (if first = '+' ∨ first = '-' then rest else first :: rest), isDecimalChar c = true := by
      split
      · exact fun c hc => h c (List.mem_cons_of_mem _ hc)
      · exact h
    rw [if_neg, if_pos (List.all_eq_true.2 hunsigned)]
    intro hinfinity
    rw [hinfinity] at hunsigned
    exact absurd (hunsigned 'I' (by decide)) (by decide)

theorem ofText_of_decimalChars {s : String} (hne : s.toList ≠ []) (h : ∀ c ∈ s.toList, isDecimalChar c = true) :
    ofText s = (read? s.toList).getD .nan := by
  rw [ofText, stripEnds_of_forall fun c hc => isNumberPadding_of_isDecimalChar (h c hc), ofTrimmed_of_decimalChars hne h]

end Number

/-! ### Layouts are read back -/

namespace Magnitude
variable {x : Magnitude} {d : Decimal}

/-- The exponent of a decimal that reads back is within the range of magnitudes. -/
theorem IsPositive.leading_bounds (hx : x.IsPositive) (hd : x.Nearest d.units) : d.leading.natAbs < 500 := by
  have hone : (0 : ℚ) < unitsInOne := by exact_mod_cast unitsInOne_pos
  have hsignificant := Decimal.significant_of_digitCount_pos (hx.digitCount_pos hd)
  have hdigits : Number.valueIn 10 d.significant.1 < 10 ^ d.significant.1.length :=
    Decimal.valueIn_lt hsignificant.digits
  have hvalue : d.value =
      (⟨Number.valueIn 10 d.significant.1, d.significant.2 - d.significant.1.length⟩ : Decimal).value :=
    d.value_significant
  have hlow : -400 < d.significant.2 := by
    by_contra hlow
    have hzero : zero.Nearest d.units := by
      rw [Decimal.units, hvalue]
      refine Decimal.nearest_zero_of_small hdigits ?_
      dsimp only
      omega
    have hpos := hx.1
    rw [← hd.unique hzero] at hpos
    cases hpos
  have hhigh : d.significant.2 ≤ 401 := by
    by_contra hhigh
    have hinfinite : infinite.Nearest d.units := by
      refine nearest_infinite ((Decimal.units_infinite_le (d := ⟨1, d.significant.2 - 1⟩) one_ne_zero ?_).trans ?_)
      · dsimp only
        omega
      · exact mul_le_mul_of_nonneg_right hsignificant.pow_leading_le hone.le
    have hfinite := hx.2
    rw [← hd.unique hinfinite] at hfinite
    cases hfinite
  unfold Decimal.leading
  omega

/-- All digits of a moderate exponent are read. -/
theorem valueRead_exponentSigned {e : ℤ} (h : e.natAbs < 500) :
    Exponent.valueRead (some (Decimal.exponentSigned e)) = Exponent.value (some (Decimal.exponentSigned e)) := by
  have hdigits : Decimal.naturalOf (Decimal.exponentSigned e).digits = e.natAbs := Decimal.naturalOf_toDigits _
  have hvalue : Number.valueIn 10 (Decimal.exponentSigned e).digits = e.natAbs := Decimal.valueIn_toDigits _
  have hread : Decimal.exponentOf (Decimal.exponentSigned e).digits = e.natAbs := by
    rw [Decimal.exponentOf_eq_naturalOf, hdigits]
    rw [hdigits, Decimal.exponentBound]
    omega
  rw [Exponent.valueRead, Exponent.value, hread, hvalue]

/-- The layout of a decimal that reads back is read as a decimal that reads back. -/
theorem IsPositive.read?_numeral (hx : x.IsPositive) (hd : x.Nearest d.units) :
    (Decimal.read? d.numeral.text).map Decimal.toMagnitude = some x := by
  have hlayout := Decimal.layout_spec (hx.digitCount_pos hd)
  have hexponent : Exponent.valueRead d.layout.2.2 = Exponent.value d.layout.2.2 := by
    by_cases hmoderate : -7 < d.leading ∧ d.leading < 21
    · rw [hlayout.positional hmoderate]
      rfl
    · rw [(hlayout.scientific hmoderate).2.2, valueRead_exponentSigned (hx.leading_bounds hd)]
  have hread := (Numeral.read?_decimal hlayout.valid).2 hlayout.full
  rw [Decimal.numeral, hread, Option.map_some, hexponent]
  refine congrArg some (Nearest.unique (q := d.units) hd ?_)
  rw [Decimal.units, ← hlayout.value]
  exact Decimal.nearest_toMagnitude _

end Magnitude

namespace Number
variable {x : Magnitude}

/-- The text of a number that is neither zero nor infinite is the layout of its shortest decimal behind its sign. -/
theorem toList_toText (negative : Bool) (hx : x.IsPositive) :
    (signed negative x).toText.toList = (if negative then ['-'] else []) ++ x.shortest.numeral.text := by
  rw [toText, hx.1, hx.2, if_neg Bool.false_ne_true, if_neg Bool.false_ne_true]
  cases negative with
  | false => exact Decimal.toList_toText _
  | true =>
    rw [if_pos rfl, String.toList_append, Decimal.toList_toText]
    rfl

/-- The number of the layout, without a sign and behind one. -/
theorem read?_numeral (hx : x.IsPositive) :
    read? x.shortest.numeral.text = some (signed false x) ∧
      read? ('-' :: x.shortest.numeral.text) = some (signed true x) := by
  have hlayout := Decimal.layout_spec (hx.digitCount_pos hx.isShortest.readsBack)
  have hbegins : Numeral.BeginsDecimal x.shortest.numeral.text := Numeral.beginsDecimal_text hlayout.valid
  obtain ⟨d, hd, hmagnitude⟩ := Option.map_eq_some_iff.1 (hx.read?_numeral hx.isShortest.readsBack)
  constructor
  · rw [Numeral.number_read?_eq hbegins, hd, Option.map_some, hmagnitude]
  · have hnegative : read? ('-' :: x.shortest.numeral.text) =
        (readUnsigned? x.shortest.numeral.text).map (read?.ofMagnitude true) := rfl
    rw [hnegative, Numeral.readUnsigned?_eq hbegins, hd, Option.map_some, hmagnitude]
    rfl

theorem ofText_toText_of_positive (negative : Bool) (hx : x.IsPositive) :
    ofText (signed negative x).toText = signed negative x := by
  have hlayout := Decimal.layout_spec (hx.digitCount_pos hx.isShortest.readsBack)
  have hdecimal : ∀ c ∈ x.shortest.numeral.text, isDecimalChar c = true :=
    Numeral.isDecimalChar_of_mem_text hlayout.valid
  have hbegins : Numeral.BeginsDecimal x.shortest.numeral.text := Numeral.beginsDecimal_text hlayout.valid
  have hne : x.shortest.numeral.text ≠ [] := by
    obtain ⟨c, rest, -, heq | heq⟩ := hbegins <;> rw [heq] <;> exact List.cons_ne_nil _ _
  obtain ⟨hunsigned, hsigned⟩ := read?_numeral hx
  have htext := toList_toText negative hx
  cases negative with
  | false =>
    rw [if_neg Bool.false_ne_true, List.nil_append] at htext
    rw [ofText_of_decimalChars (htext ▸ hne) (htext ▸ hdecimal), htext, hunsigned]
    rfl
  | true =>
    rw [if_pos rfl, List.singleton_append] at htext
    have hchars : ∀ c ∈ '-' :: x.shortest.numeral.text, isDecimalChar c = true :=
      List.forall_mem_cons.2 ⟨rfl, hdecimal⟩
    rw [ofText_of_decimalChars (htext ▸ List.cons_ne_nil _ _) (htext ▸ hchars), htext, hsigned]
    rfl

theorem ofConstant_toText_of_positive (hx : x.IsPositive) :
    ofConstant (signed false x).toText.toList = signed false x := by
  have hlayout := Decimal.layout_spec (hx.digitCount_pos hx.isShortest.readsBack)
  have hunmarked : ∀ rest, x.shortest.numeral.text = '0' :: rest → Unmarked rest := fun rest heq =>
    Numeral.unmarked_of_valid hlayout.valid heq
  rw [toList_toText false hx, if_neg Bool.false_ne_true, List.nil_append, Numeral.ofConstant_of_unmarked hunmarked,
    (read?_numeral hx).1]
  rfl

/-! ### The round trip -/

theorem toText_of_isZero {x : Number} (h : x.isZero = true) : x.toText = "0" := by
  cases x with
  | nan => cases h
  | signed negative x => rw [toText, if_pos (show x.isZero = true from h)]

theorem ofText_toText (x : Number) : ofText x.toText = if x.isZero then zero else x := by
  by_cases hzero : x.isZero = true
  · rw [toText_of_isZero hzero, if_pos hzero]
    decide
  rw [if_neg hzero]
  cases x with
  | nan => decide
  | signed negative x =>
    by_cases hinfinite : x.isInfinite = true
    · obtain rfl : x = .infinite := Magnitude.eq_of_code (beq_iff_eq.1 hinfinite)
      cases negative <;> decide
    · exact ofText_toText_of_positive negative ⟨Bool.eq_false_iff.2 hzero, Bool.eq_false_iff.2 hinfinite⟩

/-- Different numbers have different texts, but for the zeros. -/
theorem toText_eq_iff {x y : Number} : x.toText = y.toText ↔ x = y ∨ x.isZero = true ∧ y.isZero = true := by
  constructor
  · intro h
    have hread := congrArg ofText h
    rw [ofText_toText, ofText_toText] at hread
    by_cases hx : x.isZero = true <;> by_cases hy : y.isZero = true
    · exact .inr ⟨hx, hy⟩
    · rw [if_pos hx, if_neg hy] at hread
      exact absurd (hread ▸ rfl) hy
    · rw [if_neg hx, if_pos hy] at hread
      exact absurd (hread ▸ rfl) hx
    · rw [if_neg hx, if_neg hy] at hread
      exact .inl hread
  · rintro (rfl | ⟨hx, hy⟩)
    · rfl
    · rw [toText_of_isZero hx, toText_of_isZero hy]

/-- Finite and not below zero, where a negative zero counts as zero. -/
def IsNonnegative : Number → Prop
  | nan => False
  | signed negative x => x.isInfinite = false ∧ (negative = true → x.isZero = true)

theorem IsNonnegative.cases {x : Number} (hx : x.IsNonnegative) :
    x.isZero = true ∨ ∃ m : Magnitude, m.IsPositive ∧ x = signed false m := by
  cases x with
  | nan => cases hx
  | signed negative m =>
    obtain ⟨hfinite, hsign⟩ := hx
    by_cases hzero : m.isZero = true
    · exact .inl hzero
    · have hpositive : negative = false := Bool.eq_false_iff.2 fun hnegative => hzero (hsign hnegative)
      exact .inr ⟨m, ⟨Bool.eq_false_iff.2 hzero, hfinite⟩, by rw [hpositive]⟩

theorem IsNonnegative.ofConstant_toText {x : Number} (hx : x.IsNonnegative) :
    ofConstant x.toText.toList = if x.isZero then zero else x := by
  rcases hx.cases with hzero | ⟨m, hm, rfl⟩
  · rw [toText_of_isZero hzero, if_pos hzero]
    decide
  · have hnonzero : (signed false m).isZero = false := hm.1
    rw [ofConstant_toText_of_positive hm, hnonzero, if_neg Bool.false_ne_true]

theorem IsNonnegative.reads_toText {x : Number} (hx : x.IsNonnegative) (m : Matcher) :
    Reads m x.toText.toList [.number x.toText] := by
  obtain ⟨whole, fraction, exponent, hvalid, htext⟩ : ∃ whole fraction exponent,
      (Numeral.decimal whole fraction exponent).Valid ∧
        x.toText.toList = (Numeral.decimal whole fraction exponent).text := by
    rcases hx.cases with hzero | ⟨m, hm, rfl⟩
    · refine ⟨['0'], none, none, ⟨List.forall_mem_singleton.2 rfl, nofun, List.cons_ne_nil _ _, nofun⟩, ?_⟩
      rw [toText_of_isZero hzero]
      rfl
    · have hlayout := Decimal.layout_spec (hm.digitCount_pos hm.isShortest.readsBack)
      refine ⟨_, _, _, hlayout.valid, ?_⟩
      rw [toList_toText false hm]
      rfl
  have hreads := Numeral.reads_text hvalid m
  rwa [← htext, String.ofList_toList] at hreads

/-- Every number is read back from its text, a zero as the positive one. The text of one that is finite and not below
zero is a single token, and as a constant it is that number. So different numbers name different properties. The text
of one that is neither zero nor infinite is, but for the sign, the shortest decimal `d₁.d₂…dₖ * 10 ^ e` exactly, with an
exponent written unless `e` is moderate. -/
theorem text_round_trip :
    (∀ (h : Heap) (x : Number), h.toNumber (.string x.toText) = if x.isZero then zero else x) ∧
      (∀ (definitions : List (String × List String)) (x : Number), x.IsNonnegative →
        (∃ t : Token, tokenize x.toText (.ofGroups definitions) = ([t], none) ∧ t.kind = .number ∧
          t.text = x.toText) ∧ ofConstant x.toText.toList = if x.isZero then zero else x) ∧
      (∀ (h : Heap) (x y : Number), h.propertyKey (.number x) = h.propertyKey (.number y) ↔
        x = y ∨ x.isZero = true ∧ y.isZero = true) ∧
      ∀ (negative : Bool) (x : Magnitude), x.IsPositive → ∃ (digits : List Char) (e : ℤ) (whole : List Char)
          (fraction : Option (List Char)) (exponent : Option Exponent),
        x.shortest.significant = (digits, e + 1) ∧ Decimal.Significant digits ∧ x.IsShortest x.shortest ∧
          x.shortest.value = valueIn 10 digits * 10 ^ (e - (digits.length - 1)) ∧
          (signed negative x).toText.toList =
            (if negative then ['-'] else []) ++ (Numeral.decimal whole fraction exponent).text ∧
          x.shortest.IsLayout whole fraction exponent := by
  refine ⟨fun _ => ofText_toText, fun definitions x hx => ⟨?_, hx.ofConstant_toText⟩, fun _ x y => toText_eq_iff,
    fun negative x hx => ?_⟩
  · obtain ⟨tokens, htokens, hpieces⟩ := tokenize_iff_reads.2 (hx.reads_toText (SymbolTable.ofGroups definitions).all)
    obtain ⟨t, rfl, hpiece⟩ := List.map_eq_singleton_iff.1 hpieces
    exact ⟨t, htokens, congrArg Piece.kind hpiece, congrArg Piece.text hpiece⟩
  · have hpos := hx.digitCount_pos hx.isShortest.readsBack
    have hvalue := x.shortest.value_significant
    refine ⟨_, x.shortest.leading, _, _, _, ?_, Decimal.significant_of_digitCount_pos hpos, hx.isShortest, ?_,
      toList_toText negative hx, Decimal.layout_spec hpos⟩
    · rw [Decimal.leading, sub_add_cancel]
    · rw [hvalue, Decimal.leading]
      congr 2
      ring

/-- The least positive number is written with an exponent, and its text is a token. -/
theorem text_round_trip_least :
    (⟨1, by decide⟩ : Magnitude).IsPositive ∧ (signed false ⟨1, by decide⟩).toText = "5e-324" ∧
      ofConstant "5e-324".toList = signed false ⟨1, by decide⟩ ∧
        (∃ t : Token, tokenize "5e-324" .builtIn = ([t], none) ∧ t.kind = .number ∧ t.text = "5e-324") ∧
          (⟨1, by decide⟩ : Magnitude).IsShortest (Magnitude.shortest ⟨1, by decide⟩) := by
  have hpositive : (⟨1, by decide⟩ : Magnitude).IsPositive := ⟨by decide, by decide⟩
  have htext : (signed false ⟨1, by decide⟩).toText = "5e-324" := by decide +kernel
  obtain ⟨-, hsource, -, hshortest⟩ := text_round_trip
  obtain ⟨htoken, hconstant⟩ := hsource _ (signed false ⟨1, by decide⟩) ⟨by decide, nofun⟩
  obtain ⟨_, _, _, _, _, -, -, hfewest, -⟩ := hshortest false _ hpositive
  rw [htext] at htoken hconstant
  exact ⟨hpositive, htext, hconstant, htoken, hfewest⟩

end Number

end LatentExpr
