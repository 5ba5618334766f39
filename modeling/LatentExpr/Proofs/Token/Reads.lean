import LatentExpr.Proofs.Symbols.Longest
import LatentExpr.Token.Lexer

/-!
What a lexer reads, as a function of the text ahead of it. A lexer that stands `At` a text is inside no
character; blanks and comments are skipped by `skipText`, and `lexeme?` is the token that comes next. The
pieces of a text are the kinds and texts of its tokens, so `Reads` is tokenization without positions
and names.
-/
namespace LatentExpr

/-- What is decided of the members of a list one by one holds of all of them. -/
theorem forall_mem_of_all {α : Type} {l : List α} {p : α → Prop} [DecidablePred p]
    (h : (l.all fun a => decide (p a)) = true) : ∀ a ∈ l, p a := by simpa using h

/-- A token without its place and name. -/
structure Piece where
  kind : TokenKind
  text : String
deriving DecidableEq

def Token.piece (t : Token) : Piece := ⟨t.kind, t.text⟩

namespace Piece

/-- The piece of a symbol of one character. -/
def punct (c : Char) : Piece := ⟨.symbol, c.toString⟩

def symbol (text : String) : Piece := ⟨.symbol, text⟩

def identifier (text : String) : Piece := ⟨.identifier, text⟩

def number (text : String) : Piece := ⟨.number, text⟩

def string (text : String) : Piece := ⟨.string, text⟩

@[simp] theorem text_symbol (text : String) : (symbol text).text = text := rfl
@[simp] theorem text_identifier (text : String) : (identifier text).text = text := rfl
@[simp] theorem text_number (text : String) : (number text).text = text := rfl
@[simp] theorem text_string (text : String) : (string text).text = text := rfl

end Piece

namespace Lexeme

/-- The text without the blanks and comments at its start. `none` if a comment is not closed. -/
def skipText (text : List Char) : Option (List Char) :=
  match text with
  | [] => some []
  | '/' :: '/' :: text =>
    have := Lexer.length_splitLine_le text
    skipText (Comment.splitLine text).2
  | '/' :: '*' :: text =>
    match hs : Comment.splitClose? text with
    | none => none
    | some (_, rest) =>
      have := Lexer.length_splitClose_le hs
      skipText rest
  | c :: rest => if Text.isBlank c then skipText rest else some (c :: rest)
termination_by text.length
decreasing_by
  all_goals simp_all <;> omega

-- Its equations are made here, not by every proof that asks for one of them.
section
attribute [local simp] skipText
end

theorem skipText_unclosed {text : List Char} (h : Comment.splitClose? text = none) :
    skipText ('/' :: '*' :: text) = none := by
  rw [skipText]
  split
  · rfl
  · rename_i heq
    rw [h] at heq
    cases heq

theorem skipText_block {text body rest : List Char}
    (h : Comment.splitClose? text = some (body, rest)) :
    skipText ('/' :: '*' :: text) = skipText rest := by
  rw [skipText]
  split
  · rename_i heq
    rw [h] at heq
    cases heq
  · rename_i heq
    rw [h] at heq
    obtain ⟨-, rfl⟩ := Prod.mk.inj (Option.some.inj heq)
    rfl

/-- No visible ASCII character is blank. -/
theorem isBlank_of_visible {c : Char} (h : 0x20 < c.toNat) (h' : c.toNat < 0x7F) :
    Text.isBlank c = false := by
  simp [Text.isBlank, Text.isWhite, Text.whiteSpace, Text.Ranges.contains]
  omega

/-- Nothing is skipped before a character that is no blank and starts no comment. -/
theorem skipText_of_no_comment {c : Char} {after : List Char} (hblank : Text.isBlank c = false)
    (hcomment : c = '/' → after.head? ≠ some '/' ∧ after.head? ≠ some '*') :
    skipText (c :: after) = some (c :: after) := by
  rw [skipText, if_neg (by rw [hblank]; exact Bool.false_ne_true)]
  · rintro text rfl rfl
    exact (hcomment rfl).1 rfl
  · rintro text rfl rfl
    exact (hcomment rfl).2 rfl

theorem skipText_cons {c : Char} {after : List Char} (hslash : c ≠ '/')
    (hblank : Text.isBlank c = false) : skipText (c :: after) = some (c :: after) :=
  skipText_of_no_comment hblank fun h => absurd h hslash

/-- The piece at the start of a text that starts with no blank, and what follows it. -/
def lexeme? (m : Matcher) (text : List Char) : Option (Piece × List Char) :=
  match text with
  | [] => none
  | c :: after =>
    if c = '0' then
      let (number, rest) := fromZero text
      some (.number (String.ofList number), rest)
    else if c.isDigit || (c = '.' && after.head?.any Char.isDigit) then
      let (number, rest) := decimal text
      some (.number (String.ofList number), rest)
    else if Text.isIdentStart c then
      let (name, rest) := identifier text
      some (.identifier (String.ofList name), rest)
    else if Text.isQuote c then
      match stringTail c after with
      | (tail, rest, .closed) => some (.string (String.ofList (c :: tail)), rest)
      | (_, _, .unterminated) => none
    else (m.longestIn? text).map fun symbol => (.symbol symbol, text.drop symbol.length)

/-- No name and no string begins with the character, and no number unless it is a point. -/
def beginsSymbol (c : Char) : Bool := !(Text.isIdentStart c || c.isDigit || Text.isQuote c)

theorem of_beginsSymbol {c : Char} {after : List Char} (hc : beginsSymbol c = true)
    (hpoint : c = '.' → after.head?.any Char.isDigit = false) :
    c ≠ '0' ∧ (c.isDigit || (c = '.' && after.head?.any Char.isDigit)) = false ∧
      Text.isIdentStart c = false ∧ Text.isQuote c = false := by
  simp only [beginsSymbol, Bool.not_eq_true', Bool.or_eq_false_iff] at hc
  obtain ⟨⟨hident, hdigit⟩, hquote⟩ := hc
  refine ⟨?_, ?_, hident, hquote⟩
  · rintro rfl
    exact absurd hdigit (by decide)
  · rw [hdigit, Bool.false_or, Bool.and_eq_false_imp]
    exact fun h => hpoint (of_decide_eq_true h)

/-- Where no other token begins, the lexeme is the longest symbol. -/
theorem lexeme?_of_beginsSymbol {m : Matcher} {c : Char} {after : List Char} (hc : beginsSymbol c = true)
    (hpoint : c = '.' → after.head?.any Char.isDigit = false) :
    lexeme? m (c :: after) =
      (m.longestIn? (c :: after)).map fun symbol => (.symbol symbol, (c :: after).drop symbol.length) := by
  obtain ⟨hzero, hdecimal, hident, hquote⟩ := of_beginsSymbol hc hpoint
  simp only [lexeme?, if_neg hzero, hdecimal, hident, hquote, Bool.false_eq_true, if_false]

/-- The pieces of a text up to its end. -/
inductive Reads (m : Matcher) : List Char → List Piece → Prop where
  | done {text : List Char} (h : skipText text = some []) : Reads m text []
  | next {text start rest : List Char} {p : Piece} {ps : List Piece} (hs : skipText text = some start)
    (hl : lexeme? m start = some (p, rest)) (h : Reads m rest ps) : Reads m text (p :: ps)

variable {m : Matcher} {text start rest : List Char} {p : Piece} {ps qs : List Piece}

/-- What is read depends on the text behind the blanks alone. -/
theorem Reads.of_skipText_eq {text' : List Char} (h : Reads m text ps)
    (hs : skipText text = skipText text') : Reads m text' ps := by
  cases h with
  | done h => exact .done (hs ▸ h)
  | next h hl hr => exact .next (hs ▸ h) hl hr

theorem Reads.unique (h : Reads m text ps) (h' : Reads m text qs) : ps = qs := by
  induction h generalizing qs with
  | done hs =>
    cases h' with
    | done => rfl
    | next hs' hl =>
      rw [hs] at hs'
      obtain rfl := Option.some.inj hs'
      cases hl
  | next hs hl _ ih =>
    cases h' with
    | done hs' =>
      rw [hs] at hs'
      obtain rfl := Option.some.inj hs'
      cases hl
    | next hs' hl' hr =>
      rw [hs] at hs'
      obtain rfl := Option.some.inj hs'
      rw [hl] at hl'
      obtain ⟨rfl, rfl⟩ := Prod.mk.inj (Option.some.inj hl')
      rw [ih hr]

/-- Skipping ends at a text with nothing to skip. -/
theorem skipText_of_skipText (h : skipText text = some start) : skipText start = some start := by
  fun_induction skipText text with
  | case1 =>
    obtain rfl := Option.some.inj h
    rw [skipText]
  | case2 text _ ih => exact ih h
  | case3 => cases h
  | case4 text body rest hs _ ih => exact ih h
  | case5 c rest _ _ _ ih => exact ih h
  | case6 c rest hline hblock hblank =>
    obtain rfl := Option.some.inj h
    rw [skipText, if_neg hblank]
    · exact hline
    · exact hblock

theorem Reads.of_skip (hs : skipText text = some start) : Reads m start ps ↔ Reads m text ps := by
  have heq : skipText start = skipText text := (skipText_of_skipText hs).trans hs.symm
  exact ⟨fun h => h.of_skipText_eq heq, fun h => h.of_skipText_eq heq.symm⟩

/-! ### A token and the text behind it -/

theorem fst_decimal_ne_nil {c : Char} {after : List Char}
    (h : (c.isDigit || (c = '.' && after.head?.any Char.isDigit)) = true) :
    (decimal (c :: after)).1 ≠ [] := by
  simp only [decimal, run]
  by_cases hc : c.isDigit = true
  · simp [hc]
  · have hdot : c = '.' := by
      simp only [hc, Bool.false_or, Bool.and_eq_true, decide_eq_true_eq] at h
      exact h.1
    subst hdot
    simp [fraction]

theorem fst_fromZero_ne_nil (after : List Char) : (fromZero ('0' :: after)).1 ≠ [] := by
  unfold fromZero
  split
  · rename_i zero c rest heq
    split
    · exact List.cons_ne_nil _ _
    · split
      · exact List.cons_ne_nil _ _
      · split
        · exact List.cons_ne_nil _ _
        · exact fst_decimal_ne_nil rfl
  · exact fst_decimal_ne_nil rfl

/-- A piece comes first in a text. The start of the text tells what kind of piece that is. -/
inductive First (m : Matcher) : List Char → Piece → List Char → Prop where
  | zero (after : List Char) :
    First m ('0' :: after) (.number (String.ofList (fromZero ('0' :: after)).1)) (fromZero ('0' :: after)).2
  | decimal {c : Char} {after : List Char} (hzero : c ≠ '0')
    (hdecimal : (c.isDigit || (c = '.' && after.head?.any Char.isDigit)) = true) :
    First m (c :: after) (.number (String.ofList (decimal (c :: after)).1)) (decimal (c :: after)).2
  | identifier {c : Char} {after : List Char} (hident : Text.isIdentStart c = true) :
    First m (c :: after) (.identifier (String.ofList (identifier (c :: after)).1)) (identifier (c :: after)).2
  | string {c : Char} {after tail rest : List Char} (hquote : Text.isQuote c = true)
    (htail : stringTail c after = (tail, rest, .closed)) :
    First m (c :: after) (.string (String.ofList (c :: tail))) rest
  | symbol {start : List Char} {s : String} (hlong : m.longestIn? start = some s) :
    First m start (.symbol s) (start.drop s.length)

theorem first_of_lexeme? (h : lexeme? m start = some (p, rest)) : First m start p rest := by
  unfold lexeme? at h
  split at h
  · cases h
  split at h
  · rename_i hc
    subst hc
    obtain ⟨rfl, rfl⟩ := Prod.mk.inj (Option.some.inj h)
    exact .zero _
  split at h
  · rename_i hzero hdecimal
    obtain ⟨rfl, rfl⟩ := Prod.mk.inj (Option.some.inj h)
    exact .decimal hzero hdecimal
  split at h
  · rename_i hident
    obtain ⟨rfl, rfl⟩ := Prod.mk.inj (Option.some.inj h)
    exact .identifier hident
  split at h
  · rename_i hquote
    split at h
    · rename_i htail
      obtain ⟨rfl, rfl⟩ := Prod.mk.inj (Option.some.inj h)
      exact .string hquote htail
    · cases h
  · obtain ⟨symbol, hlong, heq⟩ := Option.map_eq_some_iff.1 h
    obtain ⟨rfl, rfl⟩ := Prod.mk.inj heq
    exact .symbol hlong

/-- A token is the beginning of the text, and takes at least one character of it. -/
theorem lexeme?_append {symbols : List String} (h : lexeme? (.ofSymbols symbols) start = some (p, rest)) :
    p.text.toList ++ rest = start ∧ p.text.toList ≠ [] := by
  cases first_of_lexeme? h with
  | zero after =>
    rw [Piece.text_number, String.toList_ofList]
    exact ⟨fromZero_append _, fst_fromZero_ne_nil after⟩
  | decimal _ hdecimal =>
    rw [Piece.text_number, String.toList_ofList]
    exact ⟨decimal_append _, fst_decimal_ne_nil hdecimal⟩
  | identifier =>
    rw [Piece.text_identifier, String.toList_ofList]
    exact ⟨identifier_append _, List.cons_ne_nil _ _⟩
  | @string c after _ _ _ htail =>
    have happend := stringTail_append c after
    rw [htail] at happend
    rw [Piece.text_string, String.toList_ofList]
    exact ⟨congrArg (c :: ·) happend, List.cons_ne_nil _ _⟩
  | symbol hlong =>
    rcases Matcher.longestIn?_spec symbols start with ⟨s, hmem, hpre, hs, -⟩ | ⟨hnone, -⟩
    · rw [hs] at hlong
      obtain rfl := Option.some.inj hlong
      obtain ⟨rest, hrest⟩ := hpre
      have hne := ((Matcher.mem_symbols_ofSymbols symbols s).1 hmem).2
      refine ⟨?_, ?_⟩
      · rw [← hrest, ← String.length_toList, List.drop_left, Piece.text_symbol]
      · rw [Piece.text_symbol]
        exact fun h => hne (String.toList_eq_nil_iff.1 h)
    · rw [hnone] at hlong
      cases hlong

/-- A token that is a symbol is the longest one. -/
theorem longestIn?_of_lexeme? {s : String} (h : lexeme? m start = some (.symbol s, rest)) :
    m.longestIn? start = some s ∧ rest = start.drop s.length := by
  cases first_of_lexeme? h with
  | symbol hlong => exact ⟨hlong, rfl⟩

theorem identifier_of_lexeme? {name : String} (h : lexeme? m start = some (.identifier name, rest)) :
    ∃ c after, start = c :: after ∧ Text.isIdentStart c = true ∧
      identifier start = (name.toList, rest) := by
  cases first_of_lexeme? h with
  | identifier hident => exact ⟨_, _, rfl, hident, by rw [String.toList_ofList]⟩

theorem length_lt_of_lexeme? {symbols : List String}
    (h : lexeme? (.ofSymbols symbols) start = some (p, rest)) : rest.length < start.length := by
  obtain ⟨rfl, hne⟩ := lexeme?_append h
  have := List.length_pos_iff.2 hne
  simp only [List.length_append]
  omega

theorem length_le_of_skipText (h : skipText text = some start) : start.length ≤ text.length := by
  fun_induction skipText text with
  | case1 =>
    obtain rfl := Option.some.inj h
    exact Nat.le_refl _
  | case2 text hle ih =>
    have := ih h
    simp only [List.length_cons]
    omega
  | case3 => cases h
  | case4 text body rest hs hle ih =>
    have := ih h
    simp only [List.length_cons]
    omega
  | case5 c rest _ _ _ ih =>
    have := ih h
    simp only [List.length_cons]
    omega
  | case6 =>
    obtain rfl := Option.some.inj h
    exact Nat.le_refl _

end Lexeme

namespace Lexer

/-- The lexer stands before a text, inside no character. -/
structure At (l : Lexer) (symbols : SymbolTable) (text : List Char) : Prop where
  split : l.split = []
  symbols : l.symbols = symbols
  rest : l.rest = text

open Lexeme

variable {l : Lexer} {symbols : SymbolTable} {text start : List Char}

theorem At.ofSource (source : String) (symbols : SymbolTable) :
    (ofSource source symbols).At symbols source.toList := ⟨rfl, rfl, rfl⟩

/-- Skipping stands before the text behind the blanks, or faults where that does. -/
theorem At.skip (h : l.At symbols text) :
    (∃ start l', skipText text = some start ∧ skip l = (.ok (), l') ∧ l'.At symbols start) ∨
      ∃ e l', skipText text = none ∧ skip l = (.error e, l') := by
  obtain ⟨hsplit, hsym, rfl⟩ := h
  fun_induction skip l with
  | case1 l hr =>
    rw [hr, skipText]
    exact .inl ⟨[], l, rfl, rfl, hsplit, hsym, hr⟩
  | case2 l text hr _ line ih =>
    rw [hr, skipText]
    exact ih hsplit hsym
  | case3 l text hr hs =>
    rw [hr, skipText_unclosed hs]
    exact .inr ⟨_, _, rfl, rfl⟩
  | case4 l text hr body rest hs _ block mark ih =>
    rw [hr, skipText_block hs]
    exact ih hsplit hsym
  | case5 l c rest hline hblock hr hblank ih =>
    rw [hr, skipText, if_pos hblank]
    · exact ih hsplit hsym
    · exact hline
    · exact hblock
  | case6 l c rest hline hblock hr hblank =>
    rw [hr, skipText, if_neg hblank]
    · exact .inl ⟨c :: rest, l, rfl, rfl, hsplit, hsym, hr⟩
    · exact hline
    · exact hblock

end Lexer

end LatentExpr
