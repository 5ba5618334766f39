import LatentExpr.Proofs.Grammar.Requests

/-!
Tokens before other text. A token ends where no character can continue it (`Ended`), so before the end, a blank
or a delimiter the text of a token is that token again. A whole number is the exception: it takes a point.
-/
namespace LatentExpr.Lexeme

open Text

/-! ### Delimiters -/

/-- The characters that come behind a name or a constant where expressions are printed. -/
def delimiters : List Char := [' ', ')', ']', ',', ':', '(', '[', '.']

/-- The text ends or goes on with a delimiter. -/
def Delimited (after : List Char) : Prop := ∀ c ∈ after.head?, c ∈ delimiters

/-- The text ends or goes on with what continues no name and no exponent. -/
def Ended (after : List Char) : Prop := ∀ c ∈ after.head?, isIdentContinue c = false ∧ c ≠ '+' ∧ c ≠ '-'

/-- A run of the class ends here. -/
def Halts (p : Char → Bool) (after : List Char) : Prop := ∀ c ∈ after.head?, p c = false

variable {p : Char → Bool} {text taken more after : List Char}

theorem Delimited.ended (h : Delimited after) : Ended after := fun c hc =>
  have hall : ∀ c ∈ delimiters, isIdentContinue c = false ∧ c ≠ '+' ∧ c ≠ '-' :=
    forall_mem_of_all (by decide)
  hall c (h c hc)

theorem isBlank_of_isIdentStart {c : Char} (hc : isIdentStart c = true) : isBlank c = false := by
  simp only [isIdentStart, Char.isAlpha, Char.isUpper, Char.isLower, Bool.or_eq_true, Bool.and_eq_true,
    decide_eq_true_eq, beq_iff_eq, UInt32.le_iff_toNat_le] at hc
  rcases hc with ((⟨h, h'⟩ | ⟨h, h'⟩) | rfl) | rfl
  · exact isBlank_of_visible (Nat.lt_of_lt_of_le (by decide) h) (Nat.lt_of_le_of_lt h' (by decide))
  · exact isBlank_of_visible (Nat.lt_of_lt_of_le (by decide) h) (Nat.lt_of_le_of_lt h' (by decide))
  · decide
  · decide

theorem Ended.of_isBlank (h : ∀ c ∈ after.head?, isBlank c = true) : Ended after := by
  intro c hc
  have hblank := h c hc
  refine ⟨?_, ?_, ?_⟩
  · rw [isIdentContinue, Bool.or_eq_false_iff, Bool.eq_false_iff, Bool.eq_false_iff]
    constructor
    · intro hstart
      rw [isBlank_of_isIdentStart hstart] at hblank
      cases hblank
    · intro hdigit
      rw [isBlank_of_isDigit hdigit] at hblank
      cases hblank
  · rintro rfl
    exact absurd hblank (by decide)
  · rintro rfl
    exact absurd hblank (by decide)

theorem Ended.continues (h : Ended after) : Halts isIdentContinue after := fun c hc => (h c hc).1

/-- A class of characters of names halts where no name goes on. -/
theorem Ended.halts (h : Ended after) (hp : ∀ c, p c = true → isIdentContinue c = true) : Halts p after :=
  fun c hc => Bool.eq_false_iff.2 fun htrue => Bool.eq_false_iff.1 (h c hc).1 (hp c htrue)

theorem isIdentContinue_of_isDigit {c : Char} (hc : c.isDigit = true) : isIdentContinue c = true := by
  rw [isIdentContinue, hc, Bool.or_true]

theorem isIdentContinue_of_isOctalDigit {c : Char} (hc : isOctalDigit c = true) : isIdentContinue c = true := by
  refine isIdentContinue_of_isDigit ?_
  simp only [isOctalDigit, Char.isDigit, Bool.and_eq_true, decide_eq_true_eq] at hc ⊢
  exact ⟨hc.1, UInt32.le_trans hc.2 (by decide)⟩

theorem isIdentContinue_of_isBinaryDigit {c : Char} (hc : isBinaryDigit c = true) : isIdentContinue c = true := by
  simp only [isBinaryDigit, Bool.or_eq_true, beq_iff_eq] at hc
  rcases hc with rfl | rfl <;> decide

theorem isIdentContinue_of_isHexDigit {c : Char} (hc : isHexDigit c = true) : isIdentContinue c = true := by
  simp only [isHexDigit, Bool.or_eq_true, Bool.and_eq_true, decide_eq_true_eq] at hc
  have halpha (h : c.isAlpha = true) : isIdentContinue c = true := by simp [isIdentContinue, isIdentStart, h]
  rcases hc with (hc | ⟨hlow, hhigh⟩) | ⟨hlow, hhigh⟩
  · exact isIdentContinue_of_isDigit hc
  · refine halpha ?_
    simp only [Char.isAlpha, Char.isLower, Bool.or_eq_true, Bool.and_eq_true, decide_eq_true_eq]
    exact .inr ⟨hlow, UInt32.le_trans hhigh (by decide)⟩
  · refine halpha ?_
    simp only [Char.isAlpha, Char.isUpper, Bool.or_eq_true, decide_eq_true_eq]
    exact .inl ⟨hlow, UInt32.le_trans hhigh (by decide)⟩

theorem Ended.digit (h : Ended after) : Halts Char.isDigit after := h.halts fun _ => isIdentContinue_of_isDigit

theorem Halts.append (htaken : Halts p taken) (hafter : Halts p after) :
    Halts p (taken ++ after) := by
  cases taken with
  | nil => exact hafter
  | cons => exact htaken

theorem halts_dropWhile : Halts p (text.dropWhile p) := by
  intro c hc
  have h := List.head?_dropWhile_not p text
  rw [Option.mem_def.1 hc] at h
  simpa using h

/-! ### Runs -/

theorem run_of_halts (h : Halts p text) : run p text = ([], text) := by
  cases text with
  | nil => rfl
  | cons c text =>
    have hc : ¬p c = true := by simp [h c rfl]
    rw [run, List.takeWhile_cons_of_neg hc, List.dropWhile_cons_of_neg hc]

theorem run_again (htaken : ∀ c ∈ taken, p c = true) (hafter : Halts p after) :
    run p (taken ++ after) = (taken, after) := by
  obtain ⟨htake, hdrop⟩ := Prod.mk.inj (run_of_halts hafter)
  rw [run, List.takeWhile_append_of_pos htaken, List.dropWhile_append_of_pos htaken, htake, hdrop,
    List.append_nil]

theorem of_mem_run {c : Char} (h : c ∈ (run p text).1) : p c = true := List.all_eq_true.1 List.all_takeWhile c h

/-! ### Numbers -/

theorem fraction_of_not_point (h : after.head? ≠ some '.') : fraction after = ([], after) := by
  unfold fraction
  split
  · exact absurd rfl h
  · rfl

theorem fraction_again (hafter : Halts Char.isDigit after)
    (hpoint : (fraction text).1 = [] → after.head? ≠ some '.') :
    fraction ((fraction text).1 ++ after) = ((fraction text).1, after) := by
  unfold fraction at hpoint ⊢
  split at hpoint
  · rename_i rest
    simp only [List.cons_append, run_again (fun c hc => of_mem_run hc) hafter]
  · exact fraction_of_not_point (hpoint rfl)

theorem sign_of_halts (h : Halts (fun c => decide (c = '+' ∨ c = '-')) text) :
    sign text = ([], text) := by
  cases text with
  | nil => rfl
  | cons c text => exact if_neg (of_decide_eq_false (h c rfl))

theorem sign_again (hmore : Halts (fun c => decide (c = '+' ∨ c = '-')) more) :
    sign ((sign text).1 ++ more) = ((sign text).1, more) := by
  cases text with
  | nil => exact sign_of_halts hmore
  | cons c text =>
    by_cases hc : c = '+' ∨ c = '-'
    · simp [sign, hc]
    · rw [show sign (c :: text) = ([], c :: text) from if_neg hc]
      exact sign_of_halts hmore

theorem Ended.signless (h : Ended after) : Halts (fun c => decide (c = '+' ∨ c = '-')) after :=
  fun c hc => decide_eq_false fun hsign => hsign.elim (h c hc).2.1 (h c hc).2.2

/-- Behind the marker of an exponent there is no sign where digits or the end of the number come. -/
theorem Ended.unsigned (hafter : Ended after) :
    Halts (fun c => decide (c = '+' ∨ c = '-')) ((run Char.isDigit text).1 ++ after) := by
  refine .append (fun c hc => ?_) hafter.signless
  have hdigit := of_mem_run (List.mem_of_mem_head? hc)
  rw [decide_eq_false_iff_not]
  rintro (rfl | rfl) <;> exact absurd hdigit (by decide)

theorem exponent_of_ended (h : Ended after) : exponent after = ([], after) := by
  cases after with
  | nil => rfl
  | cons c after =>
    have hc : ¬(c = 'e' ∨ c = 'E') := by
      rintro (rfl | rfl) <;> exact absurd (h _ rfl).1 (by decide)
    exact if_neg hc

theorem exponent_again (hafter : Ended after) :
    exponent ((exponent text).1 ++ after) = ((exponent text).1, after) := by
  cases text with
  | nil => exact exponent_of_ended hafter
  | cons c text =>
    by_cases hc : c = 'e' ∨ c = 'E'
    · simp only [exponent, if_pos hc, List.cons_append, List.append_assoc,
        sign_again hafter.unsigned, run_again (fun c hc => of_mem_run hc) hafter.digit]
    · rw [show exponent (c :: text) = ([], c :: text) from if_neg hc]
      exact exponent_of_ended hafter

/-- What ends a run is not read, so the run of a text stays what it is before it. -/
theorem run_before (h : Halts p more) : run p (text ++ more) = ((run p text).1, (run p text).2 ++ more) := by
  have hrun : run p ((run p text).1 ++ ((run p text).2 ++ more)) = _ :=
    run_again (fun c hc => of_mem_run hc) (halts_dropWhile.append h)
  rwa [← List.append_assoc, run_append] at hrun

theorem sign_before (h : Ended more) : sign (text ++ more) = ((sign text).1, (sign text).2 ++ more) := by
  cases text with
  | nil => exact sign_of_halts h.signless
  | cons c text =>
    by_cases hc : c = '+' ∨ c = '-'
    · simp only [sign, List.cons_append, if_pos hc]
    · simp only [sign, List.cons_append, if_neg hc]

theorem exponent_before (h : Ended more) :
    exponent (text ++ more) = ((exponent text).1, (exponent text).2 ++ more) := by
  cases text with
  | nil => exact exponent_of_ended h
  | cons c text =>
    by_cases hc : c = 'e' ∨ c = 'E'
    · simp only [exponent, List.cons_append, if_pos hc, sign_before h, run_before h.digit]
    · simp only [exponent, List.cons_append, if_neg hc]

/-- Behind the digits of a number come its fraction and exponent, or what is no digit. -/
theorem head_exponent {c : Char} (h : c ∈ (exponent text).1.head?) : c = 'e' ∨ c = 'E' := by
  cases text with
  | nil => cases h
  | cons d text =>
    by_cases hd : d = 'e' ∨ d = 'E'
    · simp only [exponent, if_pos hd, List.cons_append, List.head?_cons, Option.mem_some_iff] at h
      exact h ▸ hd
    · rw [show exponent (d :: text) = ([], d :: text) from if_neg hd] at h
      cases h

theorem head_fraction {c : Char} (h : c ∈ (fraction text).1.head?) : c = '.' := by
  unfold fraction at h
  split at h
  · exact (Option.some.inj h).symm
  · cases h

theorem decimal_again (hafter : Ended after)
    (hpoint : after.head? = some '.' → (decimal text).1.all Char.isDigit = false) :
    decimal ((decimal text).1 ++ after) = ((decimal text).1, after) := by
  have hexponent : Halts Char.isDigit ((exponent (fraction (run Char.isDigit text).2).2).1 ++ after) :=
    .append (fun c hc => by rcases head_exponent hc with rfl | rfl <;> rfl) hafter.digit
  have hfraction : Halts Char.isDigit ((fraction (run Char.isDigit text).2).1 ++
      ((exponent (fraction (run Char.isDigit text).2).2).1 ++ after)) :=
    .append (fun c hc => by rw [head_fraction hc]; rfl) hexponent
  simp only [decimal, List.append_assoc, run_again (fun c hc => of_mem_run hc) hfraction]
  rw [fraction_again hexponent]
  · simp only [exponent_again hafter]
  · intro hnone hhead
    -- With no fraction and no exponent the number is a run of digits.
    cases hexp : (exponent (fraction (run Char.isDigit text).2).2).1 with
    | nil =>
      rw [hexp, List.nil_append] at hhead
      have hall := hpoint hhead
      simp only [decimal, hnone, hexp, List.append_nil] at hall
      rw [show (run Char.isDigit text).1.all Char.isDigit = true from List.all_takeWhile] at hall
      cases hall
    | cons c more =>
      rw [hexp] at hhead
      have hc : c = 'e' ∨ c = 'E' := head_exponent (by rw [hexp]; rfl)
      rw [Option.some.inj hhead] at hc
      exact absurd hc (by decide)

/-- A whole decimal number, which takes the point behind it. -/
def isWhole (text : List Char) : Bool :=
  text.all Char.isDigit &&
    match text with
    | '0' :: c :: _ => !isOctalDigit c
    | _ => true

theorem all_isDigit_of_not_isWhole (h : isWhole text = false)
    (hoctal : ∀ c more, text = '0' :: c :: more → isOctalDigit c = false) :
    text.all Char.isDigit = false := by
  unfold isWhole at h
  split at h
  · rename_i c more
    simpa [hoctal c more rfl] using h
  · simpa using h

/-- A zero is decimal unless a base or an octal digit is marked behind it. -/
def Unmarked (text : List Char) : Prop :=
  ∀ c ∈ text.head?, ¬(c = 'x' ∨ c = 'X') ∧ ¬(c = 'b' ∨ c = 'B') ∧ isOctalDigit c = false

theorem fromZero_of_unmarked (h : Unmarked text) : fromZero ('0' :: text) = decimal ('0' :: text) := by
  cases text with
  | nil => rfl
  | cons c text =>
    obtain ⟨hx, hb, ho⟩ := h c rfl
    simp only [fromZero, if_neg hx, if_neg hb, ho, Bool.false_eq_true, if_false]

theorem Ended.unmarked (h : Ended after) : Unmarked after := by
  intro c hc
  have hname := (h c hc).1
  refine ⟨?_, ?_, Bool.eq_false_iff.2 fun ho => ?_⟩
  · rintro (rfl | rfl) <;> exact absurd hname (by decide)
  · rintro (rfl | rfl) <;> exact absurd hname (by decide)
  · rw [isIdentContinue_of_isOctalDigit ho] at hname
    cases hname

theorem fromZero_again (hafter : Ended after)
    (hpoint : after.head? = some '.' → isWhole (fromZero ('0' :: text)).1 = false) :
    fromZero ((fromZero ('0' :: text)).1 ++ after) = ((fromZero ('0' :: text)).1, after) := by
  by_cases hmark : Unmarked text
  · rw [fromZero_of_unmarked hmark] at hpoint ⊢
    -- What is read is the zero and a beginning of the text behind it.
    obtain ⟨d, more, hmore⟩ := List.exists_cons_of_ne_nil (fst_decimal_ne_nil (c := '0') rfl)
    have happend := decimal_append ('0' :: text)
    rw [hmore] at happend
    obtain ⟨rfl, htext⟩ := List.cons.inj happend
    have hmarked (c : Char) (m : List Char) (h : more = c :: m) := hmark c (by rw [← htext, h]; rfl)
    have hunmarked : Unmarked (more ++ after) := by
      cases more with
      | nil => exact hafter.unmarked
      | cons c m =>
        intro c' hc'
        obtain rfl := Option.some.inj hc'
        exact hmarked c m rfl
    have hall (h : after.head? = some '.') : (decimal ('0' :: text)).1.all Char.isDigit = false := by
      refine all_isDigit_of_not_isWhole (hpoint h) fun c m heq => ?_
      rw [hmore] at heq
      exact (hmarked c m (List.cons.inj heq).2).2.2
    rw [← decimal_again hafter hall, hmore, List.cons_append, fromZero_of_unmarked hunmarked]
  · cases text with
    | nil => exact absurd (fun c hc => nomatch hc) hmark
    | cons c text =>
      by_cases hx : c = 'x' ∨ c = 'X'
      · simp only [fromZero, if_pos hx, List.cons_append,
          run_again (fun c hc => of_mem_run hc) (hafter.halts fun _ => isIdentContinue_of_isHexDigit)]
      by_cases hb : c = 'b' ∨ c = 'B'
      · simp only [fromZero, if_neg hx, if_pos hb, List.cons_append,
          run_again (fun c hc => of_mem_run hc) (hafter.halts fun _ => isIdentContinue_of_isBinaryDigit)]
      by_cases ho : isOctalDigit c = true
      · have hoctal (more : List Char) : fromZero ('0' :: c :: more) =
            ('0' :: (run isOctalDigit (c :: more)).1, (run isOctalDigit (c :: more)).2) := by
          simp only [fromZero, if_neg hx, if_neg hb, if_pos ho]
        have hdigits : (run isOctalDigit (c :: text)).1 = c :: (run isOctalDigit text).1 :=
          List.takeWhile_cons_of_pos ho
        have hrun : run isOctalDigit ((run isOctalDigit (c :: text)).1 ++ after) = _ :=
          run_again (fun d hd => of_mem_run hd) (hafter.halts fun _ => isIdentContinue_of_isOctalDigit)
        rw [hoctal]
        rw [hdigits] at hrun ⊢
        simp only [List.cons_append] at hrun ⊢
        rw [hoctal, hrun]
      · refine absurd (fun d hd => ?_) hmark
        obtain rfl := Option.some.inj hd
        exact ⟨hx, hb, Bool.eq_false_iff.2 ho⟩

theorem identifier_again (hafter : Ended after) {c : Char} :
    identifier ((identifier (c :: text)).1 ++ after) = ((identifier (c :: text)).1, after) := by
  simp only [identifier, List.cons_append,
    run_again (fun c hc => of_mem_run hc) hafter.continues]

theorem stringTail_again {quote : Char} {tail rest : List Char} (hquote : quote ≠ '\\')
    (h : stringTail quote text = (tail, rest, .closed)) :
    stringTail quote (tail ++ after) = (tail, after, .closed) := by
  fun_induction stringTail quote text generalizing tail with
  | case1 | case2 | case5 => cases h
  | case3 _ _ tail _ _ hs ih =>
    obtain ⟨rfl, hrest⟩ := Prod.mk.inj h
    rw [List.cons_append, List.cons_append, stringTail, ih (hs.trans (congrArg (tail, ·) hrest))]
  | case4 =>
    obtain ⟨rfl, -⟩ := Prod.mk.inj h
    rw [List.singleton_append, stringTail, if_pos rfl]
    · exact fun h => absurd h hquote
    · exact fun _ _ h => absurd h hquote
  | case6 c rest' hlast hescape hc hfeed tail _ _ hs ih =>
    obtain ⟨rfl, hrest⟩ := Prod.mk.inj h
    have hslash : c ≠ '\\' := by
      intro hslash
      cases rest' with
      | nil => exact hlast hslash rfl
      | cons d more => exact hescape d more hslash rfl
    rw [List.cons_append, stringTail, if_neg hc, if_neg hfeed, ih (hs.trans (congrArg (tail, ·) hrest))]
    · exact fun h => absurd h hslash
    · exact fun _ _ h => absurd h hslash

/-! ### Tokens -/

variable {m : Matcher} {start rest : List Char} {q : Piece}

/-- The digits behind a point that starts a number. -/
theorem fst_decimal_point (h : text.head?.any Char.isDigit = true) :
    ∃ d more, (decimal ('.' :: text)).1 = '.' :: d :: more ∧ d.isDigit = true := by
  cases text with
  | nil => cases h
  | cons d text =>
    have hd : d.isDigit = true := h
    refine ⟨d, (run Char.isDigit text).1 ++ (exponent (run Char.isDigit text).2).1, ?_, hd⟩
    simp [decimal, run, fraction, hd]

theorem lexeme?_zero : lexeme? m ('0' :: text) =
    some (.number (String.ofList (fromZero ('0' :: text)).1), (fromZero ('0' :: text)).2) := rfl

theorem lexeme?_zero_again (hafter : Ended after)
    (hpoint : after.head? = some '.' → isWhole (fromZero ('0' :: text)).1 = false) :
    lexeme? m ((fromZero ('0' :: text)).1 ++ after) =
      some (.number (String.ofList (fromZero ('0' :: text)).1), after) := by
  have hagain := fromZero_again hafter hpoint
  obtain ⟨d, more, hmore⟩ := List.exists_cons_of_ne_nil (fst_fromZero_ne_nil text)
  have happend := fromZero_append ('0' :: text)
  rw [hmore] at happend hagain ⊢
  obtain ⟨rfl, -⟩ := List.cons.inj happend
  rw [List.cons_append] at hagain ⊢
  rw [lexeme?_zero, hagain]

theorem lexeme?_decimal {c : Char} (hzero : c ≠ '0')
    (h : (c.isDigit || (c = '.' && text.head?.any Char.isDigit)) = true) :
    lexeme? m (c :: text) =
      some (.number (String.ofList (decimal (c :: text)).1), (decimal (c :: text)).2) := by
  simp only [lexeme?, if_neg hzero, if_pos h]

theorem lexeme?_decimal_again {c : Char} (hzero : c ≠ '0')
    (h : (c.isDigit || (c = '.' && text.head?.any Char.isDigit)) = true) (hafter : Ended after)
    (hpoint : after.head? = some '.' → isWhole (decimal (c :: text)).1 = false) :
    lexeme? m ((decimal (c :: text)).1 ++ after) =
      some (.number (String.ofList (decimal (c :: text)).1), after) := by
  obtain ⟨d, more, hmore⟩ := List.exists_cons_of_ne_nil (fst_decimal_ne_nil h)
  have happend := decimal_append (c :: text)
  rw [hmore] at happend
  obtain ⟨rfl, -⟩ := List.cons.inj happend
  have hagain := decimal_again hafter fun hhead =>
    all_isDigit_of_not_isWhole (hpoint hhead) fun c m heq => by
      rw [hmore] at heq
      exact absurd (List.cons.inj heq).1 hzero
  have hstart : (d.isDigit || (d = '.' && (more ++ after).head?.any Char.isDigit)) = true := by
    by_cases hd : d.isDigit = true
    · rw [hd, Bool.true_or]
    · rw [Bool.or_eq_true, or_iff_right hd, Bool.and_eq_true, decide_eq_true_eq] at h
      obtain ⟨rfl, hhead⟩ := h
      obtain ⟨c, others, hpointed, hc⟩ := fst_decimal_point hhead
      rw [hmore] at hpointed
      rw [(List.cons.inj hpointed).2]
      simp [hc]
  rw [hmore, List.cons_append] at hagain ⊢
  rw [lexeme?_decimal hzero hstart, hagain]

theorem lexeme?_string {c : Char} (hquote : isQuote c = true)
    (h : stringTail c text = (taken, rest, .closed)) :
    lexeme? m (c :: text) = some (.string (String.ofList (c :: taken)), rest) := by
  have hc : c = '\'' ∨ c = '"' := by simpa [isQuote] using hquote
  have hother : c ≠ '0' ∧ c.isDigit = false ∧ c ≠ '.' ∧ isIdentStart c = false := by
    rcases hc with rfl | rfl <;> decide
  simp [lexeme?, hother, hquote, h]

/-- A token that is no symbol is read again where it ends. -/
theorem lexeme?_again (h : lexeme? m start = some (q, rest)) (hkind : q.kind ≠ .symbol)
    (hafter : Ended after)
    (hpoint : after.head? = some '.' → q.kind = .number → isWhole q.text.toList = false) :
    lexeme? m (q.text.toList ++ after) = some (q, after) := by
  cases first_of_lexeme? h with
  | zero =>
    rw [Piece.text_number, String.toList_ofList] at hpoint ⊢
    exact lexeme?_zero_again hafter fun hhead => hpoint hhead rfl
  | decimal hzero hdecimal =>
    rw [Piece.text_number, String.toList_ofList] at hpoint ⊢
    exact lexeme?_decimal_again hzero hdecimal hafter fun hhead => hpoint hhead rfl
  | @identifier c text hident =>
    have hagain : identifier ((identifier (c :: text)).1 ++ after) = _ := identifier_again hafter
    rw [Piece.text_identifier, String.toList_ofList]
    show lexeme? m (c :: ((run isIdentContinue text).1 ++ after)) = _
    rw [lexeme?_identifier hident]
    exact congrArg (fun read => some (Piece.identifier (String.ofList read.1), read.2)) hagain
  | @string c _ _ _ hquote htail =>
    have hslash : c ≠ '\\' := by
      rintro rfl
      exact absurd hquote (by decide)
    rw [Piece.text_string, String.toList_ofList, List.cons_append]
    exact lexeme?_string hquote (stringTail_again hslash htail)
  | symbol => exact absurd rfl hkind

theorem skipText_of_isIdentStart {c : Char} (hc : isIdentStart c = true) (text : List Char) :
    skipText (c :: text) = some (c :: text) := by
  refine skipText_cons ?_ (isBlank_of_isIdentStart hc)
  rintro rfl
  exact absurd hc (by decide)

theorem skipText_of_isDigit {c : Char} (hc : c.isDigit = true) (text : List Char) :
    skipText (c :: text) = some (c :: text) := by
  refine skipText_cons ?_ (isBlank_of_isDigit hc)
  rintro rfl
  exact absurd hc (by decide)

/-- Nothing is skipped before a token that is no symbol. -/
theorem skipText_of_lexeme? (h : lexeme? m start = some (q, rest)) (hkind : q.kind ≠ .symbol) :
    ∃ c more, start = c :: more ∧ ∀ text, skipText (c :: text) = some (c :: text) := by
  cases first_of_lexeme? h with
  | zero => exact ⟨_, _, rfl, skipText_of_isDigit rfl⟩
  | decimal _ hdecimal =>
    refine ⟨_, _, rfl, ?_⟩
    rw [Bool.or_eq_true, Bool.and_eq_true, decide_eq_true_eq] at hdecimal
    rcases hdecimal with hc | ⟨rfl, -⟩
    · exact skipText_of_isDigit hc
    · exact fun text => skipText_cons (by decide) (by decide)
  | identifier hident => exact ⟨_, _, rfl, skipText_of_isIdentStart hident⟩
  | @string c _ _ _ hquote =>
    refine ⟨_, _, rfl, ?_⟩
    have hc : c = '\'' ∨ c = '"' := by simpa [isQuote] using hquote
    rcases hc with rfl | rfl <;> exact fun text => skipText_cons (by decide) (by decide)
  | symbol => exact absurd rfl hkind

/-- Text that is read goes on behind a token that is no symbol. -/
theorem Reads.again {symbols : List String} {ps : List Piece}
    (h : lexeme? (.ofSymbols symbols) start = some (q, rest)) (hkind : q.kind ≠ .symbol)
    (hafter : Ended after)
    (hpoint : after.head? = some '.' → q.kind = .number → isWhole q.text.toList = false)
    (hreads : Reads (.ofSymbols symbols) after ps) :
    Reads (.ofSymbols symbols) (q.text.toList ++ after) (q :: ps) := by
  obtain ⟨c, more, rfl, hskip⟩ := skipText_of_lexeme? h hkind
  obtain ⟨happend, hne⟩ := lexeme?_append h
  obtain ⟨d, taken, htaken⟩ := List.exists_cons_of_ne_nil hne
  rw [htaken] at happend
  obtain ⟨rfl, -⟩ := List.cons.inj happend
  refine .next ?_ (lexeme?_again h hkind hafter hpoint) hreads
  rw [htaken]
  exact hskip _

/-! ### A whole number before a point and a name -/

theorem halts_exponent (h : Halts Char.isDigit text) : Halts Char.isDigit (exponent text).2 := by
  cases text with
  | nil => exact h
  | cons c text =>
    by_cases hc : c = 'e' ∨ c = 'E'
    · simp only [exponent, if_pos hc]
      exact halts_dropWhile
    · simpa only [exponent, if_neg hc] using h

/-- The point behind a whole number belongs to it, and so does an exponent behind the point. -/
theorem lexeme?_whole (h : isWhole text = true) (hne : text ≠ []) (hmore : Halts Char.isDigit more) :
    lexeme? m (text ++ '.' :: more) =
      some (.number (String.ofList (text ++ '.' :: (exponent more).1)), (exponent more).2) := by
  obtain ⟨hdigits, hmark⟩ := Bool.and_eq_true_iff.1 h
  rw [List.all_eq_true] at hdigits
  have hpoint : Halts Char.isDigit ('.' :: more) := by
    rintro _ ⟨⟩
    rfl
  have hrun := run_again hdigits hpoint
  have hnone := run_of_halts hmore
  have hdecimal : decimal (text ++ '.' :: more) = (text ++ '.' :: (exponent more).1, (exponent more).2) := by
    simp only [decimal, hrun, fraction, hnone, List.append_assoc, List.cons_append, List.nil_append]
  obtain ⟨c, digits, rfl⟩ := List.exists_cons_of_ne_nil hne
  rw [List.cons_append] at hdecimal ⊢
  by_cases hzero : c = '0'
  · subst hzero
    have hunmarked : Unmarked (digits ++ '.' :: more) := by
      cases digits with
      | nil =>
        rintro _ ⟨⟩
        decide
      | cons d digits =>
        rintro _ ⟨⟩
        have hd := hdigits d (List.mem_cons_of_mem _ List.mem_cons_self)
        refine ⟨?_, ?_, by simpa using hmark⟩ <;>
          (rintro (rfl | rfl) <;> exact absurd hd (by decide))
    rw [lexeme?_zero, fromZero_of_unmarked hunmarked, hdecimal]
  · have hdigit : c.isDigit = true := hdigits c List.mem_cons_self
    rw [lexeme?_decimal hzero (by rw [hdigit]; rfl), hdecimal]

/-! ### Symbols -/

variable {s : String} {ps : List Piece}

theorem Reads.space (h : Reads m after ps) : Reads m (' ' :: after) ps := by
  refine h.of_skipText_eq ?_
  rw [skipText.eq_def (' ' :: after)]
  rfl

/-- Only an equals sign makes a built-in symbol longer. -/
theorem symbol?_again (hs : s ∈ SymbolTable.builtIn.all.symbols) (hafter : after.head? ≠ some '=') :
    symbol? (s.toList ++ after) = some s := by
  have hlonger : ∀ s ∈ SymbolTable.builtIn.all.symbols, ∀ longer ∈ SymbolTable.builtIn.all.symbols,
      s.toList <+: longer.toList →
        longer = s ∨ (longer.toList.drop s.toList.length).head? = some '=' := by
    rw [SymbolTable.symbols_builtIn]
    decide
  obtain ⟨longest, heq, hmem, hpre, hle⟩ := symbol?_of_prefix hs (List.prefix_append s.toList after)
  rcases hlonger s hs longest hmem hle with rfl | hhead
  · exact heq
  · obtain ⟨more, hmore⟩ := hle
    rw [← hmore, List.prefix_append_right_inj] at hpre
    rw [← hmore, List.drop_left] at hhead
    obtain ⟨others, rfl⟩ := hpre
    cases more with
    | nil => cases hhead
    | cons c more => exact absurd hhead hafter

/-- Nothing is skipped before a built-in symbol, unless a comment starts there. -/
theorem skipText_symbol (hs : s ∈ SymbolTable.builtIn.all.symbols)
    (hslash : s = "/" → after.head? ≠ some '/' ∧ after.head? ≠ some '*') :
    skipText (s.toList ++ after) = some (s.toList ++ after) := by
  have hfirst : ∀ s ∈ SymbolTable.builtIn.all.symbols, s ≠ "/" →
      s.toList.head?.any (fun c => c ≠ '/' ∧ 0x20 < c.toNat ∧ c.toNat < 0x7F) = true := by
    rw [SymbolTable.symbols_builtIn]
    decide
  by_cases hdiv : s = "/"
  · subst hdiv
    exact skipText_of_no_comment (by decide) fun _ => hslash rfl
  · have h := hfirst s hs hdiv
    cases hlist : s.toList with
    | nil => simp [hlist] at h
    | cons c more =>
      rw [hlist] at h
      obtain ⟨hc, hvisible⟩ : c ≠ '/' ∧ 0x20 < c.toNat ∧ c.toNat < 0x7F := by simpa using h
      exact skipText_cons hc (isBlank_of_visible hvisible.1 hvisible.2)

theorem Reads.symbol (hs : s ∈ SymbolTable.builtIn.all.symbols) (hdot : s ≠ ".")
    (hslash : s = "/" → after.head? = some ' ') (hafter : after.head? ≠ some '=')
    (h : Reads SymbolTable.builtIn.all after ps) :
    Reads SymbolTable.builtIn.all (s.toList ++ after) (.symbol s :: ps) := by
  have hlexeme := lexeme?_of_symbol? (symbol?_again hs hafter) hdot
  rw [← String.length_toList, List.drop_left] at hlexeme
  refine .next (skipText_symbol hs fun hdiv => ?_) hlexeme h
  rw [hslash hdiv]
  exact ⟨by decide, by decide⟩

/-- Punctuation ends before any text. -/
theorem Reads.punct {c : Char} (hc : c ∈ punctuation) (hdot : c ≠ '.')
    (h : Reads SymbolTable.builtIn.all after ps) :
    Reads SymbolTable.builtIn.all (c :: after) (.punct c :: ps) := by
  have hvisible : ∀ c ∈ punctuation, c ≠ '/' ∧ isBlank c = false := forall_mem_of_all (by decide)
  have hsymbol : symbol? (c :: after) = some c.toString := (symbol?_punctuation_iff hc).2 rfl
  have hlexeme := lexeme?_of_symbol? hsymbol (Lexer.toString_ne hdot)
  refine .next (skipText_cons (hvisible c hc).1 (hvisible c hc).2) ?_ h
  rw [hlexeme]
  simp [Piece.punct, Piece.symbol]

/-- A point before a name. -/
theorem Reads.point {c : Char} (hc : isIdentStart c = true)
    (h : Reads SymbolTable.builtIn.all (c :: after) ps) :
    Reads SymbolTable.builtIn.all ('.' :: c :: after) (.punct '.' :: ps) := by
  have hsymbol : symbol? ('.' :: c :: after) = some "." :=
    (symbol?_punctuation_iff (c := '.') (by decide)).2 rfl
  have hlexeme := lexeme?_point (skipText_of_isIdentStart hc after) hc hsymbol
  exact .next (skipText_cons (by decide) (by decide)) hlexeme h

end LatentExpr.Lexeme
