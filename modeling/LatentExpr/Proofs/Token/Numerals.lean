import LatentExpr.Proofs.Number.Digits
import LatentExpr.Proofs.Token.Again
import LatentExpr.Proofs.Token.Partition
import LatentExpr.Value.Constant

/-!
The constants that denote numbers. Where a number starts, what stands behind a zero chooses a radix, and the digits of
that radix are taken (`Numeral.scan`); when the constant is evaluated, its text is told apart once more. Both come to
the same, for every number in every source (`number_constants`).
-/
namespace LatentExpr

open Lexeme Text

/-- The radixes that can be chosen behind a zero. -/
inductive Radix where
  | hex
  | binary
  | octal
deriving DecidableEq

namespace Radix

def base : Radix → Nat
  | hex => 16
  | binary => 2
  | octal => 8

/-- The digits of a radix. -/
def holds : Radix → Char → Bool
  | hex => isHexDigit
  | binary => isBinaryDigit
  | octal => isOctalDigit

/-- What chooses a radix. Octal digits choose theirs by themselves. -/
def marks : Radix → List (List Char)
  | hex => [['0', 'x'], ['0', 'X']]
  | binary => [['0', 'b'], ['0', 'B']]
  | octal => [['0']]

theorem digitIn?_of_holds {r : Radix} {c : Char} (h : r.holds c = true) :
    Number.digitIn? r.base c = some (Number.digitValue c) := by
  cases r with
  | hex => exact Number.digitIn?_of_lt h (Number.digitValue_lt_of_isHexDigit h)
  | binary =>
    rw [holds, isBinaryDigit, Bool.or_eq_true, beq_iff_eq, beq_iff_eq] at h
    rcases h with rfl | rfl <;> decide
  | octal =>
    obtain ⟨hdigit, hlt⟩ := Number.digitValue_lt_of_isOctalDigit h
    exact Number.digitIn?_of_lt (by rw [isHexDigit, hdigit, Bool.true_or, Bool.true_or]) hlt

end Radix

/-- An exponent of ten: its marker, a sign or none, and digits. -/
structure Exponent where
  marker : Char
  sign : List Char
  digits : List Char
deriving DecidableEq

/-- How a number is written. -/
inductive Numeral where
  /-- What chooses a radix, and digits in it. -/
  | inRadix (radix : Radix) (mark digits : List Char)
  /-- Digits, digits behind a point, and an exponent. -/
  | decimal (whole : List Char) (fraction : Option (List Char)) (exponent : Option Exponent)
deriving DecidableEq

namespace Exponent

def text (e : Exponent) : List Char := e.marker :: e.sign ++ e.digits

/-- What an exponent may be made of. -/
structure Valid (e : Exponent) : Prop where
  marker : e.marker = 'e' ∨ e.marker = 'E'
  sign : e.sign = [] ∨ e.sign = ['+'] ∨ e.sign = ['-']
  digits : ∀ c ∈ e.digits, c.isDigit = true

/-- The exponent at the start of a text. -/
def scan : List Char → Option Exponent
  | [] => none
  | c :: rest =>
    if c = 'e' ∨ c = 'E' then some ⟨c, (Lexeme.sign rest).1, (run Char.isDigit (Lexeme.sign rest).2).1⟩
    else none

/-- An exponent of some size. -/
def signed (e : Exponent) (size : Nat) : ℤ := if e.sign = ['-'] then -size else size

/-- The value of an exponent, exactly. -/
def value : Option Exponent → ℤ
  | none => 0
  | some e => e.signed (Number.valueIn 10 e.digits)

/-- The value of an exponent of which digits may have been left out. -/
def valueRead : Option Exponent → ℤ
  | none => 0
  | some e => e.signed (Decimal.exponentOf e.digits)

end Exponent

namespace Numeral

/-- A point and the digits behind it. -/
def fractionText : Option (List Char) → List Char
  | none => []
  | some digits => '.' :: digits

def exponentText : Option Exponent → List Char
  | none => []
  | some e => e.text

def text : Numeral → List Char
  | inRadix _ mark digits => mark ++ digits
  | decimal whole fraction exponent => whole ++ fractionText fraction ++ exponentText exponent

/-- The digits behind the point at the start of a text. -/
def scanFraction : List Char → Option (List Char)
  | '.' :: rest => some (run Char.isDigit rest).1
  | _ => none

def scanDecimal (text : List Char) : Numeral :=
  let (whole, rest) := run Char.isDigit text
  decimal whole (scanFraction rest) (Exponent.scan (Lexeme.fraction rest).2)

/-- The number at the start of a text. -/
def scan : List Char → Numeral
  | '0' :: c :: rest =>
    if c = 'x' ∨ c = 'X' then inRadix .hex ['0', c] (run isHexDigit rest).1
    else if c = 'b' ∨ c = 'B' then inRadix .binary ['0', c] (run isBinaryDigit rest).1
    else if isOctalDigit c then inRadix .octal ['0'] (run isOctalDigit (c :: rest)).1
    else scanDecimal ('0' :: c :: rest)
  | text => scanDecimal text

/-- What a number may be made of. A decimal number has a digit before or behind the point, and no octal digit behind a
zero that it starts with. -/
def Valid : Numeral → Prop
  | inRadix radix mark digits =>
    mark ∈ radix.marks ∧ (∀ c ∈ digits, radix.holds c = true) ∧ (radix = .octal → digits ≠ [])
  | decimal whole fraction exponent =>
    (∀ c ∈ whole ++ fraction.getD [], c.isDigit = true) ∧ (∀ e ∈ exponent, e.Valid) ∧
      whole ++ fraction.getD [] ≠ [] ∧ ∀ c more, whole = '0' :: c :: more → isOctalDigit c = false

/-- A radix without digits, or a marker of an exponent without digits. -/
def Bare : Numeral → Prop
  | inRadix _ _ digits => digits = []
  | decimal _ _ exponent => ∃ e ∈ exponent, e.digits = []

/-- The decimal with some value of its exponent. -/
def scaled (whole : List Char) (fraction : Option (List Char)) (exponent : ℤ) : Decimal :=
  ⟨Number.valueIn 10 (whole ++ fraction.getD []), exponent - (fraction.getD []).length⟩

/-- The number that a text in a radix, or a decimal one, is read as. -/
def decoded : Numeral → Number
  | inRadix radix _ digits => .ofDigits radix.base digits
  | n => (Number.read? n.text).getD .nan

/-! ### Scanning -/

section
variable {start : List Char}

theorem exponentText_scan : exponentText (Exponent.scan start) = (Lexeme.exponent start).1 := by
  cases start with
  | nil => rfl
  | cons c rest =>
    rw [Exponent.scan, Lexeme.exponent]
    split <;> rfl

theorem scanFraction_of_not_point (h : start.head? ≠ some '.') : scanFraction start = none := by
  unfold scanFraction
  split
  · exact absurd rfl h
  · rfl

theorem fractionText_scan : fractionText (scanFraction start) = (Lexeme.fraction start).1 := by
  by_cases hpoint : start.head? = some '.'
  · obtain ⟨rest, rfl⟩ := List.head?_eq_some_iff.1 hpoint
    rfl
  · rw [scanFraction_of_not_point hpoint, fraction_of_not_point hpoint]
    rfl

theorem text_scanDecimal : (scanDecimal start).text = (Lexeme.decimal start).1 := by
  rw [scanDecimal, text, exponentText_scan, fractionText_scan]
  rfl

theorem scan_eq_scanDecimal (h : ∀ rest, start = '0' :: rest → Unmarked rest) : scan start = scanDecimal start := by
  unfold scan
  split
  · rename_i c rest
    obtain ⟨hx, hb, ho⟩ := h _ rfl c rfl
    rw [if_neg hx, if_neg hb, ho, if_neg Bool.false_ne_true]
  · rfl

/-- What is told apart behind a zero is what is taken there. -/
theorem text_scan_zero {rest : List Char} : (scan ('0' :: rest)).text = (fromZero ('0' :: rest)).1 := by
  cases rest with
  | nil => exact text_scanDecimal
  | cons c rest =>
    rw [scan, fromZero]
    split_ifs
    · rfl
    · rfl
    · rfl
    · exact text_scanDecimal

theorem valid_exponent : ∀ e ∈ Exponent.scan start, e.Valid := by
  cases start with
  | nil => nofun
  | cons c rest =>
    intro e he
    rw [Exponent.scan] at he
    split at he
    · rename_i hc
      obtain rfl := Option.some.inj he
      refine ⟨hc, ?_, fun c hc => of_mem_run hc⟩
      show (Lexeme.sign rest).1 = [] ∨ (Lexeme.sign rest).1 = ['+'] ∨ (Lexeme.sign rest).1 = ['-']
      cases rest with
      | nil => exact .inl rfl
      | cons d rest =>
        rw [Lexeme.sign]
        split
        · rename_i hd
          rcases hd with rfl | rfl
          · exact .inr (.inl rfl)
          · exact .inr (.inr rfl)
        · exact .inl rfl
    · cases he

theorem digits_scanFraction : ∀ c ∈ (scanFraction start).getD [], c.isDigit = true := by
  unfold scanFraction
  split
  · exact fun c hc => of_mem_run hc
  · nofun

/-- The text begins with a digit, or with a point and a digit. -/
def BeginsDecimal (start : List Char) : Prop :=
  ∃ c rest, c.isDigit = true ∧ (start = c :: rest ∨ start = '.' :: c :: rest)

theorem digits_scanDecimal_ne_nil (h : BeginsDecimal start) :
    (run Char.isDigit start).1 ++ (scanFraction (run Char.isDigit start).2).getD [] ≠ [] := by
  obtain ⟨c, rest, hdigit, rfl | rfl⟩ := h
  · have hwhole : (run Char.isDigit (c :: rest)).1 = c :: (run Char.isDigit rest).1 := List.takeWhile_cons_of_pos hdigit
    rw [hwhole]
    exact List.cons_ne_nil _ _
  · have hdigits : (scanFraction (run Char.isDigit ('.' :: c :: rest)).2).getD [] = c :: (run Char.isDigit rest).1 :=
      List.takeWhile_cons_of_pos hdigit
    rw [hdigits]
    exact List.append_ne_nil_of_right_ne_nil _ (List.cons_ne_nil _ _)

theorem valid_scanDecimal (hzero : ∀ rest, start = '0' :: rest → Unmarked rest) (h : BeginsDecimal start) :
    (scanDecimal start).Valid := by
  refine ⟨List.forall_mem_append.2 ⟨fun c hc => of_mem_run hc, digits_scanFraction⟩, valid_exponent,
    digits_scanDecimal_ne_nil h, ?_⟩
  intro c more (hwhole : (run Char.isDigit start).1 = '0' :: c :: more)
  have hstart := run_append Char.isDigit start
  rw [hwhole] at hstart
  exact (hzero _ hstart.symm c rfl).2.2

theorem valid_scan_zero {rest : List Char} : (scan ('0' :: rest)).Valid := by
  by_cases hmark : Unmarked rest
  · have hunmarked : ∀ more, '0' :: rest = '0' :: more → Unmarked more := fun more h => (List.cons.inj h).2 ▸ hmark
    rw [scan_eq_scanDecimal hunmarked]
    exact valid_scanDecimal hunmarked ⟨'0', rest, rfl, .inl rfl⟩
  · cases rest with
    | nil => exact absurd nofun hmark
    | cons c rest =>
      rw [scan]
      split_ifs with hx hb ho
      · refine ⟨?_, fun c hc => of_mem_run hc, nofun⟩
        rcases hx with rfl | rfl <;> decide
      · refine ⟨?_, fun c hc => of_mem_run hc, nofun⟩
        rcases hb with rfl | rfl <;> decide
      · refine ⟨List.mem_singleton_self _, fun c hc => of_mem_run hc, fun _ => ?_⟩
        rw [run, List.takeWhile_cons_of_pos ho]
        exact List.cons_ne_nil _ _
      · refine absurd (fun d hd => ?_) hmark
        obtain rfl := Option.some.inj hd
        exact ⟨hx, hb, Bool.eq_false_iff.2 ho⟩

/-- The text of a token that is a number, and what it may be made of. -/
theorem scan_of_lexeme? {m : Matcher} {rest : List Char} {s : String}
    (h : lexeme? m start = some (.number s, rest)) : (scan start).text = s.toList ∧ (scan start).Valid := by
  cases first_of_lexeme? h with
  | zero =>
    rw [String.toList_ofList]
    exact ⟨text_scan_zero, valid_scan_zero⟩
  | @decimal c after hc hdecimal =>
    have hzero : ∀ rest, c :: after = '0' :: rest → Unmarked rest := fun rest h => absurd (List.cons.inj h).1 hc
    rw [String.toList_ofList, scan_eq_scanDecimal hzero]
    refine ⟨text_scanDecimal, valid_scanDecimal hzero ?_⟩
    rw [Bool.or_eq_true, Bool.and_eq_true, decide_eq_true_eq] at hdecimal
    rcases hdecimal with hdigit | ⟨rfl, hdigit⟩
    · exact ⟨c, after, hdigit, .inl rfl⟩
    · cases after with
      | nil => cases hdigit
      | cons d after => exact ⟨d, after, hdigit, .inr rfl⟩

end

/-! ### Reading -/

/-- What is neither in a radix nor octal is read as a decimal number. -/
theorem ofConstant_of_unmarked {text : List Char} (h : ∀ rest, text = '0' :: rest → Unmarked rest) :
    Number.ofConstant text = (Number.read? text).getD .nan := by
  unfold Number.ofConstant
  split
  · exact absurd (.inl rfl) (h _ rfl 'x' rfl).1
  · exact absurd (.inr rfl) (h _ rfl 'X' rfl).1
  · exact absurd (.inl rfl) (h _ rfl 'b' rfl).2.1
  · exact absurd (.inr rfl) (h _ rfl 'B' rfl).2.1
  · rename_i first rest _ _ _ _
    rw [if_neg]
    rw [List.all_cons, (h _ rfl first rfl).2.2, Bool.false_and]
    exact Bool.false_ne_true
  · rfl

theorem ofConstant_inRadix {radix : Radix} {mark digits : List Char} (h : (inRadix radix mark digits).Valid) :
    Number.ofConstant (mark ++ digits) = .ofDigits radix.base digits := by
  obtain ⟨hmark, hdigits, hne⟩ := h
  cases radix with
  | hex =>
    rcases List.mem_pair.1 hmark with rfl | rfl <;> rfl
  | binary =>
    rcases List.mem_pair.1 hmark with rfl | rfl <;> rfl
  | octal =>
    obtain rfl := List.mem_singleton.1 hmark
    obtain ⟨c, more, rfl⟩ := List.exists_cons_of_ne_nil (hne rfl)
    have hall : (c :: more).all isOctalDigit = true := List.all_eq_true.2 hdigits
    have hc : isOctalDigit c = true := hdigits c List.mem_cons_self
    rw [List.singleton_append, Number.ofConstant, if_pos hall]
    · rfl
    all_goals
      rintro rfl
      cases hc

section
variable {whole : List Char} {fraction : Option (List Char)} {exponent : Option Exponent}

theorem head_fractionText {c : Char} (h : c ∈ (fractionText fraction).head?) : c = '.' := by
  cases fraction with
  | none => cases h
  | some digits => exact (Option.some.inj h).symm

theorem head_exponentText (hvalid : ∀ e ∈ exponent, e.Valid) {c : Char} (h : c ∈ (exponentText exponent).head?) :
    c = 'e' ∨ c = 'E' := by
  cases exponent with
  | none => cases h
  | some e =>
    obtain rfl := Option.some.inj h
    exact (hvalid e rfl).marker

theorem halts_exponentText (hvalid : ∀ e ∈ exponent, e.Valid) : Halts Char.isDigit (exponentText exponent) := by
  intro c hc
  rcases head_exponentText hvalid hc with rfl | rfl <;> rfl

theorem halts_fractionText : Halts Char.isDigit (fractionText fraction) := by
  intro c hc
  rw [head_fractionText hc]
  rfl

theorem unmarked_of_valid (h : (decimal whole fraction exponent).Valid) {rest : List Char}
    (heq : (decimal whole fraction exponent).text = '0' :: rest) : Unmarked rest := by
  obtain ⟨hdigits, hexponent, hne, hoctal⟩ := h
  have hbehind : ∀ c ∈ (fractionText fraction ++ exponentText exponent).head?, c = '.' ∨ c = 'e' ∨ c = 'E' := by
    intro c hc
    cases fraction with
    | none => exact .inr (head_exponentText hexponent hc)
    | some digits => exact .inl (Option.some.inj hc).symm
  rw [text, List.append_assoc] at heq
  cases whole with
  | nil =>
    have hzero := hbehind '0' (by rw [List.nil_append] at heq; rw [heq]; rfl)
    exact absurd hzero (by decide)
  | cons c more =>
    obtain ⟨rfl, rfl⟩ := List.cons.inj heq
    intro d hd
    cases more with
    | nil => rcases hbehind d hd with rfl | rfl | rfl <;> decide
    | cons c more =>
      obtain rfl := Option.some.inj hd
      have hdigit : c.isDigit = true := hdigits c (by simp)
      refine ⟨?_, ?_, hoctal c more rfl⟩
      · rintro (rfl | rfl) <;> cases hdigit
      · rintro (rfl | rfl) <;> cases hdigit

theorem readExponent?_magnitude {digits : List Char} (h : ∀ c ∈ digits, c.isDigit = true) :
    Decimal.readExponent?.magnitude digits = if digits = [] then none else some (Decimal.exponentOf digits : ℤ) := by
  have hall : digits.all Char.isDigit = true := List.all_eq_true.2 h
  rw [Decimal.readExponent?.magnitude, hall, Bool.not_true, Bool.or_false]
  simp only [List.isEmpty_iff]

/-- The text of an exponent is read up to the digits that are left out. -/
theorem readExponent?_eq {e : Exponent} (h : e.Valid) :
    Decimal.readExponent? (e.sign ++ e.digits) =
      if e.digits = [] then none else some (e.signed (Decimal.exponentOf e.digits)) := by
  have hmagnitude := readExponent?_magnitude h.digits
  rcases h.sign with hsign | hsign | hsign
  · have hsigned : ∀ size : Nat, e.signed size = size := fun size => if_neg (by rw [hsign]; decide)
    rw [hsigned, ← hmagnitude, hsign, List.nil_append, Decimal.readExponent?]
    · intro digits hplus
      exact absurd (h.digits '+' (hplus ▸ List.mem_cons_self)) (by decide)
    · intro digits hminus
      exact absurd (h.digits '-' (hminus ▸ List.mem_cons_self)) (by decide)
  · have hsigned : ∀ size : Nat, e.signed size = size := fun size => if_neg (by rw [hsign]; decide)
    rw [hsigned, ← hmagnitude, hsign]
    rfl
  · have hsigned : ∀ size : Nat, e.signed size = -size := fun size => if_pos hsign
    have hread : Decimal.readExponent? (e.sign ++ e.digits) =
        (Decimal.readExponent?.magnitude e.digits).map (- ·) := by rw [hsign]; rfl
    rw [hsigned, hread, hmagnitude]
    split <;> rfl

/-- A point and digits are told apart alike where a number is scanned and where it is read. -/
theorem read?_eq_scanned (text : List Char) :
    Decimal.read? text =
      let (whole, rest) := run Char.isDigit text
      let digits := (scanFraction rest).getD []
      if whole.isEmpty && digits.isEmpty then none
      else match (Lexeme.fraction rest).2 with
        | [] => some ⟨Decimal.naturalOf (whole ++ digits), -digits.length⟩
        | c :: rest =>
          if c = 'e' ∨ c = 'E' then
            (Decimal.readExponent? rest).map fun e => ⟨Decimal.naturalOf (whole ++ digits), e - digits.length⟩
          else none := by
  unfold Decimal.read? run
  dsimp only
  generalize text.dropWhile Char.isDigit = rest
  split
  · rfl
  · rename_i hpoint
    have hhead : rest.head? ≠ some '.' := by
      intro hhead
      obtain ⟨more, hmore⟩ := List.head?_eq_some_iff.1 hhead
      exact hpoint more hmore
    rw [scanFraction_of_not_point hhead, fraction_of_not_point hhead]
    rfl

theorem fraction_text (hfraction : ∀ c ∈ fraction.getD [], c.isDigit = true) (hexponent : ∀ e ∈ exponent, e.Valid) :
    scanFraction (fractionText fraction ++ exponentText exponent) = fraction ∧
      (Lexeme.fraction (fractionText fraction ++ exponentText exponent)).2 = exponentText exponent := by
  cases fraction with
  | some digits =>
    have hrun : run Char.isDigit (digits ++ exponentText exponent) = (digits, exponentText exponent) :=
      run_again hfraction (halts_exponentText hexponent)
    have hscan : scanFraction ('.' :: (digits ++ exponentText exponent)) =
        some (run Char.isDigit (digits ++ exponentText exponent)).1 := rfl
    rw [hrun] at hscan
    exact ⟨hscan, congrArg Prod.snd hrun⟩
  | none =>
    have hpoint : (exponentText exponent).head? ≠ some '.' := by
      intro hpoint
      rcases head_exponentText hexponent hpoint with h | h <;> cases h
    rw [fractionText, List.nil_append, fraction_of_not_point hpoint]
    exact ⟨scanFraction_of_not_point hpoint, rfl⟩

/-- The decimal that a number is read as, none if there are no digits behind the marker of an exponent. -/
theorem read?_decimal (h : (decimal whole fraction exponent).Valid) :
    ((decimal whole fraction exponent).Bare → Decimal.read? (decimal whole fraction exponent).text = none) ∧
      (¬ (decimal whole fraction exponent).Bare → Decimal.read? (decimal whole fraction exponent).text =
        some (scaled whole fraction (Exponent.valueRead exponent))) := by
  obtain ⟨hdigits, hexponent, hne, -⟩ := h
  obtain ⟨hwhole, hfraction⟩ := List.forall_mem_append.1 hdigits
  obtain ⟨hpoint, hbehind⟩ := fraction_text hfraction hexponent
  have hrun : run Char.isDigit (decimal whole fraction exponent).text =
      (whole, fractionText fraction ++ exponentText exponent) := by
    rw [text, List.append_assoc]
    exact run_again hwhole (halts_fractionText.append (halts_exponentText hexponent))
  have hempty : ¬ (whole.isEmpty && (fraction.getD []).isEmpty) = true := by
    rw [Bool.and_eq_true, List.isEmpty_iff, List.isEmpty_iff, ← List.append_eq_nil_iff]
    exact hne
  rw [read?_eq_scanned, hrun]
  dsimp only
  rw [hpoint, hbehind, if_neg hempty, Decimal.naturalOf_eq_valueIn hdigits]
  cases exponent with
  | none =>
    refine ⟨fun hbare => ?_, fun _ => ?_⟩
    · obtain ⟨e, he, -⟩ := hbare
      cases he
    · dsimp only [exponentText, scaled, Exponent.valueRead]
      rw [zero_sub]
  | some e =>
    dsimp only [exponentText, Exponent.text, List.cons_append]
    rw [if_pos (hexponent e rfl).marker, readExponent?_eq (hexponent e rfl)]
    refine ⟨fun hbare => ?_, fun hbare => ?_⟩
    · obtain ⟨_, ⟨⟩, hnone⟩ := hbare
      rw [if_pos hnone]
      rfl
    · rw [if_neg fun hnone => hbare ⟨e, rfl, hnone⟩]
      rfl

theorem beginsDecimal_text (h : (decimal whole fraction exponent).Valid) :
    BeginsDecimal (decimal whole fraction exponent).text := by
  obtain ⟨hdigits, -, hne, -⟩ := h
  cases whole with
  | cons c more => exact ⟨c, _, hdigits c List.mem_cons_self, .inl rfl⟩
  | nil =>
    obtain ⟨c, more, hmore⟩ := List.exists_cons_of_ne_nil hne
    rw [List.nil_append] at hmore
    cases fraction with
    | none => cases hmore
    | some digits =>
      obtain rfl : digits = c :: more := hmore
      exact ⟨c, _, hdigits c List.mem_cons_self, .inr rfl⟩

/-- What begins as a decimal number is not the name of infinity or NaN. -/
theorem readUnsigned?_eq {text : List Char} (h : BeginsDecimal text) :
    Number.readUnsigned? text = (Decimal.read? text).map fun d => some d.toMagnitude := by
  obtain ⟨c, rest, rfl, hc⟩ : ∃ c rest, text = c :: rest ∧ (c.isDigit = true ∨ c = '.') := by
    obtain ⟨c, rest, hdigit, rfl | rfl⟩ := h
    · exact ⟨c, rest, rfl, .inl hdigit⟩
    · exact ⟨'.', c :: rest, rfl, .inr rfl⟩
  have hlower : c.toLower = c := by
    rcases hc with hc | rfl
    · rw [Char.isDigit, Bool.and_eq_true, decide_eq_true_eq, decide_eq_true_eq] at hc
      refine dif_neg fun hupper => ?_
      exact absurd (UInt32.le_trans hupper.1 hc.2) (by decide)
    · rfl
  have hword : ∀ word : String, word.toList.head?.any Char.isAlpha = true →
      String.ofList ((c :: rest).map Char.toLower) ≠ word := by
    rintro _ hword rfl
    rw [String.toList_ofList, List.map_cons, hlower] at hword
    have hstart : isIdentStart c = true := by
      rw [isIdentStart, show c.isAlpha = true from hword, Bool.true_or, Bool.true_or]
    rcases hc with hc | rfl
    · rw [isDigit_of_isIdentStart hstart] at hc
      cases hc
    · cases hstart
  rw [Number.readUnsigned?, if_neg (not_or.2 ⟨hword _ rfl, hword _ rfl⟩), if_neg (hword _ rfl)]

/-- It has no sign either. -/
theorem number_read?_eq {text : List Char} (h : BeginsDecimal text) :
    Number.read? text = (Decimal.read? text).map fun d => .signed false d.toMagnitude := by
  have hunsigned := readUnsigned?_eq h
  rw [Number.read?, hunsigned, Option.map_map]
  · rfl
  all_goals
    rintro rest rfl
    obtain ⟨c, more, hdigit, heq | heq⟩ := h <;> cases heq
    cases hdigit

/-- Digits of an exponent that are left out make no difference to a short number. -/
theorem nearest_of_short (h : (decimal whole fraction exponent).Valid)
    (hshort : (decimal whole fraction exponent).text.length < 65000) {m : Magnitude}
    (hm : m.Nearest ((scaled whole fraction (Exponent.valueRead exponent)).value * Magnitude.unitsInOne)) :
    m.Nearest ((scaled whole fraction (Exponent.value exponent)).value * Magnitude.unitsInOne) := by
  obtain ⟨hdigits, hexponent, -, -⟩ := h
  by_cases hsame : Exponent.valueRead exponent = Exponent.value exponent
  · rwa [← hsame]
  cases exponent with
  | none => exact absurd rfl hsame
  | some e =>
    have hfraction : (fraction.getD []).length ≤ (fractionText fraction).length := by
      cases fraction with
      | none => exact le_rfl
      | some digits => exact Nat.le_succ _
    have hlength : whole.length + (fraction.getD []).length < 65000 := by
      simp only [text, List.length_append] at hshort
      omega
    have hcases := Decimal.exponentOf_cases e.digits
    rw [Decimal.naturalOf_eq_valueIn (hexponent e rfl).digits] at hcases
    obtain ⟨hread, hvalue⟩ := hcases.resolve_left fun heq => hsame (congrArg (fun size : Nat => e.signed size) heq)
    refine Decimal.nearest_of_far (Decimal.valueIn_lt hdigits) ?_ hm
    rw [Decimal.exponentBound] at hread hvalue
    rw [List.length_append]
    dsimp only [Exponent.valueRead, Exponent.value, Exponent.signed]
    split
    · right
      omega
    · left
      omega

end

/-- A number is read as it was scanned. -/
structure ReadAs (n : Numeral) (x : Number) : Prop where
  /-- It is read in the radix that was chosen. -/
  decoded : x = n.decoded
  isNaN : x = .nan ↔ n.Bare
  /-- In a radix it is exact as long as whole numbers are. -/
  exact : ∀ radix mark digits, n = inRadix radix mark digits → ¬ n.Bare → Number.valueIn radix.base digits < 2 ^ 53 →
    x = .ofNat (Number.valueIn radix.base digits) ∧ x.toInt? = some (Number.valueIn radix.base digits : Int)
  /-- A decimal number is accepted, and it is the one magnitude that is nearest to what is read of it. That is all of it
  unless the exponent is so large that digits of it are left out, which makes no difference to a text of fewer than
  65000 characters. -/
  nearest : ∀ whole fraction exponent, n = decimal whole fraction exponent → ¬ n.Bare →
    ∃ m, Number.read? n.text = some (.signed false m) ∧ x = .signed false m ∧
      (∀ other : Magnitude, other.Nearest ((scaled whole fraction (Exponent.valueRead exponent)).value *
        Magnitude.unitsInOne) ↔ other = m) ∧
      (n.text.length < 65000 ∨ Exponent.valueRead exponent = Exponent.value exponent →
        ∀ other : Magnitude, other.Nearest ((scaled whole fraction (Exponent.value exponent)).value *
          Magnitude.unitsInOne) ↔ other = m)

theorem readAs_inRadix {radix : Radix} {mark digits : List Char} (h : (inRadix radix mark digits).Valid) :
    (inRadix radix mark digits).ReadAs (.ofConstant (mark ++ digits)) := by
  rw [ofConstant_inRadix h]
  have hdigits : ∀ c ∈ digits, Number.digitIn? radix.base c = some (Number.digitValue c) :=
    fun c hc => Radix.digitIn?_of_holds (h.2.1 c hc)
  have hbase : 0 < radix.base ∧ radix.base < 2 ^ 53 := by cases radix <;> decide
  refine ⟨rfl, ⟨fun hnan => ?_, ?_⟩, ?_, nofun⟩
  · by_contra hne
    obtain ⟨m, hm⟩ := Number.ofDigits_isUnsigned hne hdigits hbase.1 hbase.2
    rw [hm] at hnan
    cases hnan
  · rintro rfl
    rfl
  · rintro _ _ _ ⟨⟩ hne hvalue
    rw [Number.ofDigits_eq_ofNat hne hdigits hbase.1 hbase.2 hvalue]
    exact ⟨rfl, Number.toInt?_ofNat hvalue⟩

theorem readAs_decimal {whole : List Char} {fraction : Option (List Char)} {exponent : Option Exponent}
    (h : (decimal whole fraction exponent).Valid) :
    (decimal whole fraction exponent).ReadAs (.ofConstant (decimal whole fraction exponent).text) := by
  have hread := number_read?_eq (beginsDecimal_text h)
  obtain ⟨hnone, hsome⟩ := read?_decimal h
  rw [ofConstant_of_unmarked fun rest heq => unmarked_of_valid h heq]
  refine ⟨rfl, ⟨fun hnan => ?_, fun hbare => ?_⟩, nofun, ?_⟩
  · by_contra hbare
    rw [hread, hsome hbare] at hnan
    cases hnan
  · rw [hread, hnone hbare]
    rfl
  · rintro _ _ _ ⟨⟩ hbare
    rw [hsome hbare] at hread
    have hnearest := Decimal.nearest_toMagnitude (scaled whole fraction (Exponent.valueRead exponent))
    refine ⟨_, hread, by rw [hread]; rfl, fun other => hnearest.iff_eq, fun hexact other => ?_⟩
    rcases hexact with hshort | hexact
    · exact (nearest_of_short h hshort hnearest).iff_eq
    · rw [← hexact]
      exact hnearest.iff_eq

theorem Valid.readAs {n : Numeral} (h : n.Valid) : n.ReadAs (.ofConstant n.text) := by
  cases n with
  | inRadix radix mark digits => exact readAs_inRadix h
  | decimal whole fraction exponent => exact readAs_decimal h

end Numeral

/-- Every token that is a number, in whatever source and also before a fault, is read as it was scanned. What was
scanned is told by the source from where the token stands. -/
theorem number_constants (definitions : List (String × List String)) (source : String) :
    ∀ t ∈ (tokenize source (.ofGroups definitions)).1, t.kind = .number →
      ∃ before after, t.Between (SymbolTable.ofGroups definitions).all source.toList before after ∧
        (Numeral.scan (t.text.toList ++ after)).Valid ∧ (Numeral.scan (t.text.toList ++ after)).text = t.text.toList ∧
          (Numeral.scan (t.text.toList ++ after)).ReadAs (.ofConstant t.text.toList) := by
  intro t ht hkind
  obtain ⟨before, after, hbetween⟩ := between_of_mem_tokenize ht
  have hpiece : t.piece = .number t.text := by rw [Token.piece, hkind]; rfl
  obtain ⟨htext, hvalid⟩ := Numeral.scan_of_lexeme? (hpiece ▸ hbetween.lexeme)
  have hread := hvalid.readAs
  rw [htext] at hread
  exact ⟨before, after, hbetween, hvalid, htext, hread⟩

/-- A point behind octal digits starts another number, and no digits follow the last marker. -/
theorem number_constants_cut :
    (tokenize "0X1f 07.5e1 08 1e" .builtIn).1.map (fun t => (t.text, (Number.ofConstant t.text.toList).toInt?)) =
        [("0X1f", some 31), ("07", some 7), (".5e1", some 5), ("08", some 8), ("1e", none)] ∧
      ∀ t ∈ (tokenize "0X1f 07.5e1 08 1e" .builtIn).1, t.kind = .number ∧ ∃ before after,
        t.Between SymbolTable.builtIn.all "0X1f 07.5e1 08 1e".toList before after ∧
          (Numeral.scan (t.text.toList ++ after)).ReadAs (.ofConstant t.text.toList) := by
  refine ⟨by decide +kernel, fun t ht => ?_⟩
  have hkind : ∀ t ∈ (tokenize "0X1f 07.5e1 08 1e" .builtIn).1, t.kind = .number := by decide +kernel
  obtain ⟨before, after, hbetween, -, -, hread⟩ := number_constants _ _ t ht (hkind t ht)
  exact ⟨hkind t ht, before, after, hbetween, hread⟩

end LatentExpr
