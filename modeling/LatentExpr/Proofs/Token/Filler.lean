import LatentExpr.Proofs.Token.Reads
import Mathlib.Data.List.Infix

/-!
Fillers, the texts that may stand between tokens. Skipping passes exactly a filler: it goes on behind
one (`Filler.skipText_append`), and what it has passed is one (`filler_of_skipText`), or the end of the source
was reached in a line comment.
-/
namespace LatentExpr

/-- Blanks and comments that are complete. A line comment is complete with the line feed behind it. -/
inductive Filler : List Char → Prop where
  | nil : Filler []
  | blank {c : Char} {text : List Char} (hc : Text.isBlank c = true) (h : Filler text) : Filler (c :: text)
  | line {body text : List Char} (hbody : '\n' ∉ body) (h : Filler text) :
    Filler ('/' :: '/' :: (body ++ '\n' :: text))
  | block {body text : List Char} (hbody : ¬ ['*', '/'] <:+: body) (h : Filler text) :
    Filler ('/' :: '*' :: (body ++ '*' :: '/' :: text))

/-- A filler at the end of a source, where a line comment needs no line feed. -/
inductive LastFiller : List Char → Prop where
  | complete {text : List Char} (h : Filler text) : LastFiller text
  | line {text body : List Char} (h : Filler text) (hbody : '\n' ∉ body) :
    LastFiller (text ++ '/' :: '/' :: body)

/-! ### The ends of comments -/

namespace Comment
variable {text body after : List Char}

/-- A block comment ends at the first `*/`. -/
theorem splitClose?_iff :
    splitClose? text = some (body, after) ↔ text = body ++ '*' :: '/' :: after ∧ ¬ ['*', '/'] <:+: body := by
  constructor
  · intro h
    refine ⟨eq_append_of_splitClose? h, ?_⟩
    fun_induction splitClose? text generalizing body with
    | case1 => cases h
    | case2 rest =>
      obtain ⟨rfl, -⟩ := Prod.mk.inj (Option.some.inj h)
      simp
    | case3 c rest hopen ih =>
      obtain ⟨⟨inner, tail⟩, hs, he⟩ := Option.map_eq_some_iff.1 h
      obtain ⟨rfl, rfl⟩ := Prod.mk.inj he
      rw [List.infix_cons_iff]
      rintro (hpre | hin)
      · obtain ⟨more, hmore⟩ := hpre
        obtain ⟨rfl, rfl⟩ := List.cons.inj hmore
        exact hopen _ rfl (eq_append_of_splitClose? hs)
      · exact ih hs hin
  · rintro ⟨rfl, hbody⟩
    induction body with
    | nil => rfl
    | cons c body ih =>
      rw [List.infix_cons_iff, not_or] at hbody
      rw [List.cons_append, splitClose?, ih hbody.2]
      · rfl
      rintro rest rfl heq
      cases body with
      | nil => exact absurd (List.cons.inj heq).1 (by decide)
      | cons d body =>
        obtain rfl := (List.cons.inj heq).1
        exact hbody.1 ⟨body, rfl⟩

theorem splitLine_newline (hbody : '\n' ∉ body) :
    splitLine (body ++ '\n' :: after) = (body, '\n' :: after) := by
  have hrun : ∀ c ∈ body, (c != '\n') = true := by
    rintro c hc
    rw [bne_iff_ne]
    rintro rfl
    exact hbody hc
  rw [splitLine, List.takeWhile_append_of_pos hrun, List.dropWhile_append_of_pos hrun]
  simp

/-- A line ends before a line feed or at the end of the text. -/
theorem splitLine_cases (text : List Char) :
    '\n' ∉ (splitLine text).1 ∧ ((splitLine text).2 = [] ∨ ∃ after, (splitLine text).2 = '\n' :: after) := by
  constructor
  · intro h
    exact absurd (List.all_eq_true.1 List.all_takeWhile _ h) (by decide)
  · cases hrest : (splitLine text).2 with
    | nil => exact .inl rfl
    | cons c after =>
      have hhead := List.head?_dropWhile_not (· != '\n') text
      have hdrop : text.dropWhile (· != '\n') = c :: after := hrest
      rw [hdrop] at hhead
      obtain rfl : c = '\n' := by simpa using hhead
      exact .inr ⟨after, rfl⟩

end Comment

/-! ### Skipping -/

namespace Lexeme
variable {c : Char} {text start body : List Char}

theorem ne_slash_of_isBlank (hc : Text.isBlank c = true) : c ≠ '/' := by
  rintro rfl
  exact absurd hc (by decide)

theorem skipText_blank (hc : Text.isBlank c = true) (text : List Char) :
    skipText (c :: text) = skipText text := by
  rw [skipText, if_pos hc]
  · exact fun _ h => absurd h (ne_slash_of_isBlank hc)
  · exact fun _ h => absurd h (ne_slash_of_isBlank hc)

theorem skipText_line (hbody : '\n' ∉ body) (text : List Char) :
    skipText ('/' :: '/' :: (body ++ '\n' :: text)) = skipText text := by
  rw [skipText, Comment.splitLine_newline hbody, skipText_blank (by decide)]

/-- Nothing is skipped where skipping has stopped, and that is no blank. -/
theorem isBlank_of_skipText (h : skipText text = some (c :: start)) : Text.isBlank c = false := by
  rw [Bool.eq_false_iff]
  intro hc
  have hagain := skipText_of_skipText h
  rw [skipText_blank hc] at hagain
  have := length_le_of_skipText hagain
  rw [List.length_cons] at this
  omega

end Lexeme

open Lexeme

namespace Filler
variable {gap text : List Char}

theorem skipText_append (h : Filler gap) (text : List Char) : skipText (gap ++ text) = skipText text := by
  induction h with
  | nil => rfl
  | blank hc _ ih => rw [List.cons_append, skipText_blank hc, ih]
  | @line body gap hbody _ ih =>
    have happend : '/' :: '/' :: (body ++ '\n' :: gap) ++ text = '/' :: '/' :: (body ++ '\n' :: (gap ++ text)) := by
      simp
    rw [happend, skipText_line hbody, ih]
  | @block body gap hbody _ ih =>
    have happend : '/' :: '*' :: (body ++ '*' :: '/' :: gap) ++ text =
        '/' :: '*' :: (body ++ '*' :: '/' :: (gap ++ text)) := by simp
    rw [happend, skipText_block (Comment.splitClose?_iff.2 ⟨rfl, hbody⟩), ih]

theorem append {more : List Char} (h : Filler gap) (hmore : Filler more) : Filler (gap ++ more) := by
  induction h with
  | nil => exact hmore
  | blank hc _ ih => exact .blank hc ih
  | line hbody _ ih => simpa using Filler.line hbody ih
  | block hbody _ ih => simpa using Filler.block hbody ih

theorem of_newline (h : Filler ('\n' :: text)) : Filler text := by
  cases h
  assumption

end Filler

theorem LastFiller.behind {gap text : List Char} (hgap : Filler gap) (h : LastFiller text) :
    LastFiller (gap ++ text) := by
  cases h with
  | complete h => exact .complete (hgap.append h)
  | line h hbody =>
    rw [← List.append_assoc]
    exact .line (hgap.append h) hbody

theorem LastFiller.of_newline {text : List Char} (h : LastFiller ('\n' :: text)) : LastFiller text := by
  generalize hwhole : '\n' :: text = whole at h
  cases h with
  | complete h => exact .complete (hwhole ▸ h).of_newline
  | @line gap body h hbody =>
    cases gap with
    | nil => exact absurd (List.cons.inj hwhole).1 (by decide)
    | cons c gap =>
      obtain ⟨rfl, rfl⟩ := List.cons.inj hwhole
      exact .line h.of_newline hbody

namespace Lexeme
variable {text start : List Char}

/-- What skipping has passed is a filler, which may end in a line comment if nothing follows it. -/
theorem filler_of_skipText (h : skipText text = some start) :
    (∃ gap, text = gap ++ start ∧ Filler gap) ∨ start = [] ∧ LastFiller text := by
  fun_induction skipText text with
  | case1 =>
    obtain rfl := Option.some.inj h
    exact .inl ⟨[], rfl, .nil⟩
  | case2 text _ ih =>
    obtain ⟨hbody, hend⟩ := Comment.splitLine_cases text
    have happend := Comment.splitLine_append text
    generalize Comment.splitLine text = line at *
    obtain ⟨body, rest⟩ := line
    subst happend
    rcases hend with rfl | ⟨after, rfl⟩
    · have hnothing : skipText [] = some [] := by rw [skipText]
      obtain rfl := Option.some.inj (hnothing.symm.trans h)
      rw [List.append_nil]
      exact .inr ⟨rfl, .line .nil hbody⟩
    · -- skipping goes on at the line feed, as a blank; the filler takes it into the line comment
      have hline : Filler ('/' :: '/' :: (body ++ ['\n'])) := .line hbody .nil
      have happend (text : List Char) :
          '/' :: '/' :: (body ++ '\n' :: text) = '/' :: '/' :: (body ++ ['\n']) ++ text := by simp
      rcases ih h with ⟨gap, heq, hgap⟩ | ⟨rfl, hlast⟩
      · cases gap with
        | nil =>
          obtain rfl : '\n' :: after = start := heq
          exact absurd (isBlank_of_skipText h) (by decide)
        | cons c gap =>
          obtain ⟨rfl, rfl⟩ := List.cons.inj heq
          refine .inl ⟨'/' :: '/' :: (body ++ ['\n']) ++ gap, ?_, hline.append hgap.of_newline⟩
          rw [happend, List.append_assoc]
          rfl
      · exact .inr ⟨rfl, happend after ▸ .behind hline hlast.of_newline⟩
  | case3 => cases h
  | case4 text body rest hs _ ih =>
    obtain ⟨rfl, hbody⟩ := Comment.splitClose?_iff.1 hs
    have hblock : Filler ('/' :: '*' :: (body ++ ['*', '/'])) := .block hbody .nil
    have happend (text : List Char) :
        '/' :: '*' :: (body ++ '*' :: '/' :: text) = '/' :: '*' :: (body ++ ['*', '/']) ++ text := by simp
    rcases ih h with ⟨gap, rfl, hgap⟩ | ⟨rfl, hlast⟩
    · refine .inl ⟨'/' :: '*' :: (body ++ ['*', '/']) ++ gap, ?_, hblock.append hgap⟩
      rw [happend, List.append_assoc]
    · exact .inr ⟨rfl, happend rest ▸ .behind hblock hlast⟩
  | case5 c rest _ _ hblank ih =>
    rcases ih h with ⟨gap, rfl, hgap⟩ | ⟨rfl, hlast⟩
    · exact .inl ⟨c :: gap, rfl, .blank hblank hgap⟩
    · exact .inr ⟨rfl, .behind (.blank hblank .nil) hlast⟩
  | case6 =>
    obtain rfl := Option.some.inj h
    exact .inl ⟨[], rfl, .nil⟩

end Lexeme

end LatentExpr
