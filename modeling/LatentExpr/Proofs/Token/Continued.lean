import LatentExpr.Proofs.Token.Again
import LatentExpr.Proofs.Token.Filler

/-!
A text that goes on in another line. Where a text is read to its end, a line feed changes none of its tokens:
a blank ends each of them, also where the text broke off, and closes a comment. So what is read of the whole is
what is read of the text, followed by what is read of the lines behind it (`Reads.continued`).
-/
namespace LatentExpr

/-- The line feed ends a comment that ran to the end of a source. -/
theorem LastFiller.newline {text : List Char} (h : LastFiller text) : Filler (text ++ ['\n']) := by
  cases h with
  | complete h => exact h.append (.blank (by decide) .nil)
  | line h hbody =>
    rw [List.append_assoc]
    exact h.append (.line hbody .nil)

namespace Lexeme

open Text

variable {text start rest more after : List Char} {symbols : List String} {p : Piece} {ps qs : List Piece}

/-! ### Tokens before a blank -/

section
variable (hmore : ∀ c ∈ more.head?, isBlank c = true)
include hmore

theorem point_ne_head? : more.head? ≠ some '.' := by
  intro h
  exact absurd (hmore '.' h) (by decide)

theorem fraction_before : fraction (text ++ more) = ((fraction text).1, (fraction text).2 ++ more) := by
  cases text with
  | nil => exact fraction_of_not_point (point_ne_head? hmore)
  | cons c text =>
    by_cases hc : c = '.'
    · subst hc
      simp only [fraction, List.cons_append, run_before (Ended.of_isBlank hmore).digit]
    · have hother (more : List Char) : fraction (c :: more) = ([], c :: more) :=
        fraction_of_not_point fun h => hc (Option.some.inj h)
      rw [List.cons_append, hother, hother, List.cons_append]

theorem decimal_before : decimal (text ++ more) = ((decimal text).1, (decimal text).2 ++ more) := by
  have hended := Ended.of_isBlank hmore
  simp only [decimal, run_before hended.digit, fraction_before hmore, exponent_before hended]

theorem fromZero_before :
    fromZero ('0' :: (text ++ more)) = ((fromZero ('0' :: text)).1, (fromZero ('0' :: text)).2 ++ more) := by
  have hended := Ended.of_isBlank hmore
  have hdecimal : decimal ('0' :: text ++ more) = ((decimal ('0' :: text)).1, (decimal ('0' :: text)).2 ++ more) :=
    decimal_before hmore
  cases text with
  | nil =>
    rw [List.singleton_append] at hdecimal
    rw [List.nil_append, fromZero_of_unmarked hended.unmarked, hdecimal]
    rfl
  | cons c text =>
    have hrun {p : Char → Bool} (hp : ∀ c, p c = true → isIdentContinue c = true) (text : List Char) :
        run p (text ++ more) = _ := run_before (hended.halts hp)
    rw [List.cons_append, List.cons_append] at hdecimal
    rw [List.cons_append]
    by_cases hx : c = 'x' ∨ c = 'X'
    · simp only [fromZero, if_pos hx, hrun fun _ => isIdentContinue_of_isHexDigit]
    by_cases hb : c = 'b' ∨ c = 'B'
    · simp only [fromZero, if_neg hx, if_pos hb, hrun fun _ => isIdentContinue_of_isBinaryDigit]
    by_cases ho : isOctalDigit c = true
    · have hoctal := hrun (fun _ => isIdentContinue_of_isOctalDigit) (c :: text)
      rw [List.cons_append] at hoctal
      simp only [fromZero, if_neg hx, if_neg hb, if_pos ho, hoctal]
    · simp only [fromZero, if_neg hx, if_neg hb, if_neg ho, hdecimal]

theorem identifier_before {c : Char} :
    identifier (c :: (text ++ more)) = ((identifier (c :: text)).1, (identifier (c :: text)).2 ++ more) := by
  simp only [identifier, run_before (Ended.of_isBlank hmore).continues]

end

theorem stringTail_before {quote : Char} {tail : List Char} (hquote : quote ≠ '\\')
    (h : stringTail quote text = (tail, rest, .closed)) :
    stringTail quote (text ++ more) = (tail, rest ++ more, .closed) := by
  have happend := stringTail_append quote text
  rw [h] at happend
  rw [← happend, List.append_assoc]
  exact stringTail_again hquote h

/-! ### Symbols before a line feed -/

theorem prefix_of_prefix_newline {s : List Char} (h : s <+: text ++ '\n' :: after) (hs : '\n' ∉ s) : s <+: text := by
  rcases Nat.le_total s.length text.length with hle | hle
  · exact List.prefix_of_prefix_length_le h (List.prefix_append _ _) hle
  · obtain ⟨tail, rfl⟩ := List.prefix_of_prefix_length_le (List.prefix_append _ _) h hle
    rw [List.prefix_append_right_inj] at h
    cases tail with
    | nil => rw [List.append_nil]
    | cons c tail =>
      obtain rfl := (List.cons_prefix_cons.1 h).1
      exact absurd (List.mem_append_right _ List.mem_cons_self) hs

/-- No symbol holds a line feed. -/
def InLines (symbols : List String) : Prop := ∀ s ∈ (Matcher.ofSymbols symbols).symbols, '\n' ∉ s.toList

theorem longestIn?_before (hfeed : InLines symbols) :
    (Matcher.ofSymbols symbols).longestIn? (text ++ '\n' :: after) = (Matcher.ofSymbols symbols).longestIn? text := by
  rcases Matcher.longestIn?_spec symbols (text ++ '\n' :: after) with
    ⟨longest, hmem, hpre, heq, hmax⟩ | ⟨heq, hnone⟩
  · have hpre' := prefix_of_prefix_newline hpre (hfeed longest hmem)
    rcases Matcher.longestIn?_spec symbols text with ⟨s, hs, hspre, hseq, hsmax⟩ | ⟨-, hnone⟩
    · have hle := (hmax s hs (hspre.trans (List.prefix_append _ _))).length_le
      have hsame := (hsmax longest hmem hpre').eq_of_length_le hle
      rw [heq, hseq, String.toList_inj.1 hsame]
    · exact absurd hpre' (hnone longest hmem)
  · rcases Matcher.longestIn?_spec symbols text with ⟨s, hs, hspre, -, -⟩ | ⟨hseq, -⟩
    · exact absurd (hspre.trans (List.prefix_append _ _)) (hnone s hs)
    · rw [heq, hseq]

/-! ### Whole texts -/

/-- The lexeme at the start of a text is the same if the text goes on in another line. -/
theorem lexeme?_before (hfeed : InLines symbols) (h : lexeme? (.ofSymbols symbols) start = some (p, rest)) :
    lexeme? (.ofSymbols symbols) (start ++ '\n' :: after) = some (p, rest ++ '\n' :: after) := by
  have hblank : ∀ c ∈ ('\n' :: after).head?, isBlank c = true := by
    rintro _ ⟨⟩
    rfl
  have hpoint (text : List Char) : (text ++ '\n' :: after).head?.any Char.isDigit = text.head?.any Char.isDigit := by
    cases text <;> rfl
  unfold lexeme? at h ⊢
  split at h
  · cases h
  rename_i c text
  rw [List.cons_append]
  dsimp only at h ⊢
  rw [hpoint]
  by_cases hzero : c = '0'
  · rw [if_pos hzero] at h ⊢
    subst hzero
    obtain ⟨rfl, rfl⟩ := Prod.mk.inj (Option.some.inj h)
    rw [fromZero_before hblank]
  rw [if_neg hzero] at h ⊢
  by_cases hdecimal : (c.isDigit || (c = '.' && text.head?.any Char.isDigit)) = true
  · rw [if_pos hdecimal] at h ⊢
    obtain ⟨rfl, rfl⟩ := Prod.mk.inj (Option.some.inj h)
    rw [← List.cons_append, decimal_before hblank]
  rw [if_neg hdecimal] at h ⊢
  by_cases hident : isIdentStart c = true
  · rw [if_pos hident] at h ⊢
    obtain ⟨rfl, rfl⟩ := Prod.mk.inj (Option.some.inj h)
    rw [identifier_before hblank]
  rw [if_neg hident] at h ⊢
  by_cases hquote : isQuote c = true
  · rw [if_pos hquote] at h ⊢
    have hslash : c ≠ '\\' := by
      rintro rfl
      exact absurd hquote (by decide)
    cases hs : stringTail c text with
    | mk tail scanned =>
      obtain ⟨behind, ending⟩ := scanned
      rw [hs] at h
      cases ending with
      | unterminated => cases h
      | closed =>
        obtain ⟨rfl, rfl⟩ := Prod.mk.inj (Option.some.inj h)
        rw [stringTail_before hslash hs]
  · rw [if_neg hquote] at h ⊢
    obtain ⟨s, hlong, heq⟩ := Option.map_eq_some_iff.1 h
    obtain ⟨rfl, rfl⟩ := Prod.mk.inj heq
    have hle : s.length ≤ (c :: text).length := by
      rw [← String.length_toList]
      exact (Matcher.of_longestIn? hlong).2.length_le
    rw [← List.cons_append, longestIn?_before hfeed, hlong, Option.map_some, List.drop_append_of_le_length hle]

/-- Where skipping has stopped no comment starts. -/
theorem no_comment_of_skipText {d : Char} (h : skipText ('/' :: d :: text) = some ('/' :: d :: text)) :
    d ≠ '/' ∧ d ≠ '*' := by
  constructor
  · rintro rfl
    rw [skipText] at h
    have hle := length_le_of_skipText h
    have hline := Lexer.length_splitLine_le text
    simp only [List.length_cons] at hle
    omega
  · rintro rfl
    cases hs : Comment.splitClose? text with
    | none =>
      rw [skipText_unclosed hs] at h
      cases h
    | some closed =>
      obtain ⟨body, after⟩ := closed
      rw [skipText_block hs] at h
      have hle := length_le_of_skipText h
      have hclose := Lexer.length_splitClose_le hs
      simp only [List.length_cons] at hle
      omega

theorem skipText_before (h : skipText start = some start) (hne : start ≠ []) :
    skipText (start ++ '\n' :: after) = some (start ++ '\n' :: after) := by
  obtain ⟨c, text, rfl⟩ := List.exists_cons_of_ne_nil hne
  refine skipText_of_no_comment (isBlank_of_skipText h) ?_
  rintro rfl
  cases text with
  | nil =>
    have hhead {d : Char} (hd : '\n' ≠ d) : some '\n' ≠ some d := fun heq => hd (Option.some.inj heq)
    exact ⟨hhead (by decide), hhead (by decide)⟩
  | cons d text =>
    obtain ⟨hline, hblock⟩ := no_comment_of_skipText h
    exact ⟨fun heq => hline (Option.some.inj heq), fun heq => hblock (Option.some.inj heq)⟩

/-- A text that is read to its end is read the same before another line, and then that line is. -/
theorem Reads.continued (hfeed : InLines symbols) (h : Reads (.ofSymbols symbols) text ps)
    (hafter : Reads (.ofSymbols symbols) after qs) :
    Reads (.ofSymbols symbols) (text ++ '\n' :: after) (ps ++ qs) := by
  induction h with
  | @done text hs =>
    have hlast : LastFiller text := by
      rcases filler_of_skipText hs with ⟨gap, rfl, hgap⟩ | ⟨-, hlast⟩
      · rw [List.append_nil]
        exact .complete hgap
      · exact hlast
    refine hafter.of_skipText_eq ?_
    rw [← hlast.newline.skipText_append, List.append_assoc]
    rfl
  | @next text start rest p ps hs hl _ ih =>
    have hne : start ≠ [] := by
      rintro rfl
      cases hl
    refine .next ?_ (lexeme?_before hfeed hl) ih
    rcases filler_of_skipText hs with ⟨gap, rfl, hgap⟩ | ⟨hnil, -⟩
    · rw [List.append_assoc, hgap.skipText_append]
      exact skipText_before (skipText_of_skipText hs) hne
    · exact absurd hnil hne

end Lexeme

end LatentExpr
