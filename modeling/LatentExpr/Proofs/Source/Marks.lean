import LatentExpr.Token.Lexer
import Mathlib.Data.List.Induction

/-!
Line marks. The mark `behind` a text is the last line start in it, and a location that is counted on from
there is the location counted from the start of the source (`locate_behind`), for every offset of every
source that the text begins. Going through a text again moves no mark (`through_again`), and a block
comment, whose line feeds are counted in bulk, moves it as going through its body does (`through_body`).
-/
namespace LatentExpr

namespace Lexer

theorem byteCount_cons (c : Char) (text : List Char) :
    byteCount (c :: text) = c.utf8Size + byteCount text := rfl

theorem byteCount_append (a b : List Char) : byteCount (a ++ b) = byteCount a + byteCount b :=
  Comment.measure_append _ a b

theorem byteCount_singleton (c : Char) : byteCount [c] = c.utf8Size := rfl

end Lexer

open Lexer

namespace Location

theorem takeBefore_append {read : List Char} {offset : Nat} (h : byteCount read ≤ offset)
    (rest : List Char) :
    takeBefore offset (read ++ rest) = read ++ takeBefore (offset - byteCount read) rest := by
  induction read generalizing offset with
  | nil => rfl
  | cons c read ih =>
    have hpos := c.utf8Size_pos
    rw [byteCount_cons] at h ⊢
    obtain ⟨offset, rfl⟩ : ∃ n, offset = n + 1 := ⟨offset - 1, by omega⟩
    rw [List.cons_append, takeBefore, ih (by omega), Nat.sub_add_eq, List.cons_append]

theorem dropBefore_byteCount (read rest : List Char) :
    dropBefore (byteCount read) (read ++ rest) = rest := by
  induction read with
  | nil => cases rest <;> rfl
  | cons c read ih =>
    have hpos := c.utf8Size_pos
    rw [byteCount_cons]
    obtain ⟨n, hn⟩ : ∃ n, c.utf8Size + byteCount read = n + 1 :=
      ⟨c.utf8Size + byteCount read - 1, by omega⟩
    rw [hn, List.cons_append, dropBefore, ← hn, Nat.add_sub_cancel_left, ih]

theorem line_after_of_ne {c : Char} (h : c ≠ '\n') (l : Location) : (l.after c).line = l.line := by
  unfold after
  rw [if_neg h]
  split <;> rfl

end Location

namespace LineMark

/-- The mark of the last line of a text. -/
def behind (text : List Char) : LineMark := first.through 0 text

theorem through_append (mark : LineMark) (offset : Nat) (a b : List Char) :
    mark.through offset (a ++ b) = (mark.through offset a).through (offset + byteCount a) b := by
  induction a generalizing mark offset with
  | nil => rfl
  | cons c a ih => rw [List.cons_append, through, through, ih, byteCount_cons, Nat.add_assoc]

theorem behind_append (a b : List Char) : behind (a ++ b) = (behind a).through (byteCount a) b := by
  rw [behind, through_append, Nat.zero_add]
  rfl

theorem note_of_le {mark : LineMark} {offset : Nat} (h : offset ≤ mark.start) :
    mark.note offset = mark := if_neg (Nat.not_lt.2 h)

theorem note_of_lt {mark : LineMark} {offset : Nat} (h : mark.start < offset) :
    mark.note offset = ⟨mark.line + 1, offset⟩ := if_pos h

theorem le_start_note (mark : LineMark) (offset : Nat) :
    mark.start ≤ (mark.note offset).start ∧ offset ≤ (mark.note offset).start := by
  rcases Nat.lt_or_ge mark.start offset with h | h
  · rw [note_of_lt h]
    exact ⟨Nat.le_of_lt h, Nat.le_refl _⟩
  · rw [note_of_le h]
    exact ⟨Nat.le_refl _, h⟩

theorem le_start_through (mark : LineMark) (offset : Nat) (text : List Char) :
    mark.start ≤ (mark.through offset text).start := by
  induction text generalizing mark offset with
  | nil => exact Nat.le_refl _
  | cons c text ih =>
    rw [through]
    refine Nat.le_trans ?_ (ih _ _)
    split
    · exact (le_start_note mark _).1
    · exact Nat.le_refl _

/-- A mark that is not ahead of a text is not ahead of what follows the text. -/
theorem start_through_le {mark : LineMark} {offset : Nat} (h : mark.start ≤ offset)
    (text : List Char) : (mark.through offset text).start ≤ offset + byteCount text := by
  induction text generalizing mark offset with
  | nil => exact h
  | cons c text ih =>
    have hpos := c.utf8Size_pos
    rw [through, byteCount_cons, ← Nat.add_assoc]
    apply ih
    split
    · rw [note_of_lt (Nat.lt_succ_of_le h)]
      exact Nat.add_le_add_left hpos offset
    · exact Nat.le_trans h (Nat.le_add_right _ _)

/-- A text without line feeds moves no mark. -/
theorem through_of_not_mem {text : List Char} (h : '\n' ∉ text) (mark : LineMark) (offset : Nat) :
    mark.through offset text = mark := by
  induction text generalizing offset with
  | nil => rfl
  | cons c text ih =>
    obtain ⟨hc, ht⟩ := not_or.1 (mt List.mem_cons.2 h)
    rw [through, if_neg (Ne.symm hc), ih ht]

theorem behind_append_of_not_mem {text : List Char} (h : '\n' ∉ text) (read : List Char) :
    behind (read ++ text) = behind read := by
  rw [behind_append, through_of_not_mem h]

/-- The line feeds of a text are noted once, however often it is gone through. -/
theorem through_again (mark : LineMark) (offset : Nat) (text : List Char) :
    (mark.through offset text).through offset text = mark.through offset text := by
  induction text generalizing mark offset with
  | nil => rfl
  | cons c text ih =>
    rw [through]
    by_cases hc : c = '\n'
    · have hstart := le_start_through (mark.note (offset + 1)) (offset + c.utf8Size) text
      have hnoted := Nat.le_trans (le_start_note mark (offset + 1)).2 hstart
      rw [if_pos hc, through, if_pos hc, note_of_le hnoted, ih]
    · rw [if_neg hc, through, if_neg hc, ih]

/-! ### Right marks -/

/-- A mark that stands at the start of a line of a text and has the number of that line. -/
def Right (mark : LineMark) (text : List Char) : Prop :=
  ∃ before line, text = before ++ line ∧ mark.start = byteCount before ∧
    before.foldl Location.after .start = ⟨mark.line, 1⟩

theorem Right.append {mark : LineMark} {text : List Char} (h : mark.Right text) (rest : List Char) :
    mark.Right (text ++ rest) := by
  obtain ⟨before, line, rfl, hstart, hfold⟩ := h
  exact ⟨before, line ++ rest, List.append_assoc _ _ _, hstart, hfold⟩

theorem start_behind_le (text : List Char) : (behind text).start ≤ byteCount text := by
  have h := start_through_le (Nat.le_refl first.start) text
  rwa [show first.start = 0 from rfl, Nat.zero_add] at h

/-- The mark behind a text is right, and its line is the last one of the text. -/
theorem right_behind (text : List Char) :
    (behind text).Right text ∧ (text.foldl Location.after .start).line = (behind text).line := by
  induction text using List.reverseRecOn with
  | nil => exact ⟨⟨[], [], rfl, rfl, rfl⟩, rfl⟩
  | append_singleton text c ih =>
    obtain ⟨hright, hline⟩ := ih
    rw [List.foldl_append, List.foldl_cons, List.foldl_nil]
    by_cases hc : c = '\n'
    · have hnext : behind (text ++ [c]) = ⟨(behind text).line + 1, byteCount text + 1⟩ := by
        rw [behind_append, through, if_pos hc, through,
          note_of_lt (Nat.lt_succ_of_le (start_behind_le text))]
      have hafter : (text.foldl Location.after .start).after c = ⟨(behind text).line + 1, 1⟩ := by
        rw [Location.after, if_pos hc, hline]
      rw [hnext, hafter]
      refine ⟨⟨text ++ [c], [], (List.append_nil _).symm, ?_, ?_⟩, rfl⟩
      · rw [byteCount_append, hc]
        rfl
      · rw [List.foldl_append, List.foldl_cons, List.foldl_nil, hafter]
    · have hsame : behind (text ++ [c]) = behind text :=
        behind_append_of_not_mem (by simpa using Ne.symm hc) text
      rw [hsame, Location.line_after_of_ne hc]
      exact ⟨hright.append [c], hline⟩

/-- Counting on from a right mark finds what counting from the start of the source finds. -/
theorem Right.locate {mark : LineMark} {source : List Char} (h : mark.Right source) (offset : Nat) :
    mark.locate source offset = Location.find source offset := by
  obtain ⟨before, line, rfl, hstart, hfold⟩ := h
  rw [LineMark.locate]
  by_cases hle : mark.start ≤ offset
  · have hdrop : Location.dropBefore 0 (before ++ line) = before ++ line := by
      cases before ++ line <;> rfl
    have hfold : before.foldl Location.after ⟨1, 1⟩ = ⟨mark.line, 1⟩ := hfold
    rw [if_pos hle, Location.find, Location.countFrom, Location.countFrom, hdrop, hstart,
      Location.dropBefore_byteCount, Nat.sub_zero, Location.takeBefore_append (hstart ▸ hle),
      List.foldl_append, hfold]
  · rw [if_neg hle]

/-- The mark behind any part of a source that begins it locates every offset of the source. -/
theorem locate_behind (read rest : List Char) (offset : Nat) :
    (behind read).locate (read ++ rest) offset = Location.find (read ++ rest) offset :=
  ((right_behind read).1.append rest).locate offset

/-! ### Block comments -/

theorem lastLineStart_ofBody (offset : Nat) (body : List Char) :
    (Comment.Block.ofBody Char.utf8Size offset body).lastLineStart =
      if '\n' ∈ body then
        some (offset + byteCount body - byteCount (body.reverse.takeWhile (· != '\n')))
      else none := by
  simp only [← List.contains_iff_mem]
  rfl

/-- The mark behind the body of a comment that starts at an offset: as many lines on as the body has line
feeds, and at its last line if it has any. -/
theorem through_body {mark : LineMark} {offset : Nat} (h : mark.start ≤ offset) (body : List Char) :
    mark.through offset body =
      ⟨mark.line + body.count '\n',
        (Comment.Block.ofBody Char.utf8Size offset body).lastLineStart.getD mark.start⟩ := by
  induction body using List.reverseRecOn with
  | nil => rfl
  | append_singleton body c ih =>
    have hle := start_through_le h body
    rw [lastLineStart_ofBody] at ih ⊢
    rw [through_append, List.reverse_append, List.reverse_singleton, List.singleton_append,
      byteCount_append, byteCount_singleton, List.count_append]
    by_cases hc : c = '\n'
    · subst hc
      have hone : Char.utf8Size '\n' = 1 := rfl
      have hlast : '\n' ∈ body ++ ['\n'] := by simp
      rw [through, if_pos rfl, through, note_of_lt (Nat.lt_succ_of_le hle), ih,
        List.takeWhile_cons_of_neg (by decide), if_pos hlast, hone, List.count_singleton_self]
      rfl
    · have hin : '\n' ∈ body ++ [c] ↔ '\n' ∈ body := by simp [Ne.symm hc]
      have hcount : [c].count '\n' = 0 := List.count_eq_zero.2 (by simpa using Ne.symm hc)
      rw [through_of_not_mem (by simpa using Ne.symm hc), ih, hcount, Nat.add_zero,
        List.takeWhile_cons_of_pos (by simpa using hc), byteCount_cons, ← Nat.add_assoc,
        Nat.add_comm c.utf8Size, Nat.add_sub_add_right]
      simp only [hin]

end LineMark

end LatentExpr
