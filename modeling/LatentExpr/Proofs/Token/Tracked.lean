import LatentExpr.Proofs.Engine.Configured
import LatentExpr.Proofs.Source.Marks
import LatentExpr.Proofs.Token.Requests

/-!
Tracked lines. Whatever a lexer is asked for, and also after it faulted, its mark is the one behind what it
has read, or, where a string comes next that it has looked at, the one behind that string (`Marks`). Both
are right marks of the source, so the lexer locates every offset as counting from the start does
(`locate_eq_find`).
-/
namespace LatentExpr

/-! ### Texts without line feeds -/

namespace Lexeme

theorem newline_not_mem_run {p : Char → Bool} (hp : p '\n' = false) (text : List Char) :
    '\n' ∉ (run p text).1 := by
  intro h
  have hall := List.all_eq_true.1 List.all_takeWhile _ h
  rw [hp] at hall
  cases hall

theorem newline_not_mem_fraction (text : List Char) : '\n' ∉ (fraction text).1 := by
  unfold fraction
  split
  · exact List.not_mem_cons_of_ne_of_not_mem (by decide) (newline_not_mem_run rfl _)
  · exact List.not_mem_nil

theorem newline_not_mem_sign (text : List Char) : '\n' ∉ (sign text).1 := by
  unfold sign
  split
  · exact List.not_mem_nil
  · split
    · rename_i c rest h
      have hc : '\n' ≠ c := by rcases h with rfl | rfl <;> decide
      exact List.not_mem_cons_of_ne_of_not_mem hc List.not_mem_nil
    · exact List.not_mem_nil

theorem newline_not_mem_exponent (text : List Char) : '\n' ∉ (exponent text).1 := by
  unfold exponent
  split
  · exact List.not_mem_nil
  rename_i c rest
  split
  · rename_i h
    have hc : '\n' ≠ c := by rcases h with rfl | rfl <;> decide
    show '\n' ∉ c :: ((sign rest).1 ++ (run Char.isDigit (sign rest).2).1)
    refine List.not_mem_cons_of_ne_of_not_mem hc fun hmem => ?_
    rcases List.mem_append.1 hmem with hmem | hmem
    · exact newline_not_mem_sign rest hmem
    · exact newline_not_mem_run rfl _ hmem
  · exact List.not_mem_nil

theorem newline_not_mem_decimal (text : List Char) : '\n' ∉ (decimal text).1 := by
  intro h
  rcases List.mem_append.1 h with h | h
  · rcases List.mem_append.1 h with h | h
    · exact newline_not_mem_run rfl _ h
    · exact newline_not_mem_fraction _ h
  · exact newline_not_mem_exponent _ h

theorem newline_not_mem_fromZero (after : List Char) : '\n' ∉ (fromZero ('0' :: after)).1 := by
  unfold fromZero
  split
  · rename_i zero c rest heq
    obtain ⟨rfl, -⟩ := List.cons.inj heq
    split
    · rename_i h
      have hc : '\n' ≠ c := by rcases h with rfl | rfl <;> decide
      exact List.not_mem_cons_of_ne_of_not_mem (by decide)
        (List.not_mem_cons_of_ne_of_not_mem hc (newline_not_mem_run rfl _))
    split
    · rename_i h
      have hc : '\n' ≠ c := by rcases h with rfl | rfl <;> decide
      exact List.not_mem_cons_of_ne_of_not_mem (by decide)
        (List.not_mem_cons_of_ne_of_not_mem hc (newline_not_mem_run rfl _))
    split
    · exact List.not_mem_cons_of_ne_of_not_mem (by decide) (newline_not_mem_run rfl _)
    · exact newline_not_mem_decimal _
  · exact newline_not_mem_decimal _

theorem newline_not_mem_identifier {c : Char} (hc : Text.isIdentStart c = true)
    (after : List Char) : '\n' ∉ (identifier (c :: after)).1 := by
  refine List.not_mem_cons_of_ne_of_not_mem ?_ (newline_not_mem_run rfl _)
  rintro rfl
  cases hc

end Lexeme

/-- A character whose first byte is ASCII has no other byte. -/
theorem encode_of_ascii {c : Char} {b : UInt8} (h : (String.utf8EncodeChar c).head? = some b)
    (hb : b < 128) : String.utf8EncodeChar c = [b] ∧ c.toNat = b.toNat := by
  unfold String.utf8EncodeChar at h ⊢
  have hc : c.toNat = c.val.toNat := rfl
  have hlt : b.toNat < 128 := hb
  dsimp only at h ⊢
  split at h
  · rename_i hle
    rw [if_pos hle]
    obtain rfl := Option.some.inj h
    refine ⟨rfl, ?_⟩
    rw [UInt8.toNat_ofNat', hc]
    omega
  all_goals
    exfalso
    repeat' split at h
    all_goals
      obtain rfl := Option.some.inj h
      rw [UInt8.toNat_ofNat'] at hlt
      omega

/-- A text that holds no line feed and starts no string. -/
def StartsInLine (text : List Char) : Prop :=
  '\n' ∉ text ∧ ∀ c ∈ text.head?, Text.isQuote c = false

/-- A table that was compiled from groups, and no symbol of which holds a line feed or starts with a
quote. -/
structure SymbolTable.InLine (t : SymbolTable) : Prop where
  compiled : ∃ definitions, t = .ofGroups definitions
  symbols : ∀ s ∈ t.all.symbols, StartsInLine s.toList

theorem startsInLine_builtIn (g : OperatorGroup) : ∀ s ∈ g.builtIn, StartsInLine s.toList := by
  have hall : ∀ s ∈ g.builtIn,
      '\n' ∉ s.toList ∧ (s.toList.head?.all fun c => !Text.isQuote c) = true := by
    refine forall_mem_of_all ?_
    cases g <;> decide
  intro s hs
  obtain ⟨hfeed, hquote⟩ := hall s hs
  refine ⟨hfeed, fun c hc => ?_⟩
  rw [Option.mem_def.1 hc] at hquote
  simpa using hquote

theorem startsInLine_of_validSymbol {s : String} (h : EngineBuilder.validSymbol s = true) :
    StartsInLine s.toList := by
  unfold EngineBuilder.validSymbol at h
  split at h
  · cases h
  rename_i first rest heq
  simp only [Bool.and_eq_true, Bool.not_eq_true', Bool.or_eq_false_iff, List.any_eq_false] at h
  obtain ⟨⟨⟨-, hquote⟩, hwhite⟩, -⟩ := h
  rw [heq]
  refine ⟨fun hfeed => hwhite _ hfeed (by decide), fun c hc => ?_⟩
  obtain rfl := Option.some.inj hc
  exact hquote

/-- Every configured engine has such a table. -/
theorem EngineBuilder.Configured.inLine {σ : Type} {b : EngineBuilder σ} (h : b.Configured)
    {engine : Engine σ} (hb : b.build = .ok engine) : engine.symbols.InLine where
  compiled := by
    unfold build at hb
    split at hb
    · cases hb
    · obtain rfl := Except.ok.inj hb
      exact ⟨_, rfl⟩
  symbols := h.forall_symbols startsInLine_builtIn (fun _ => startsInLine_of_validSymbol) hb

namespace Lexer

open Lexeme

/-- A text that is not empty, starts no string and holds no line feed. -/
structure Plain (text : List Char) : Prop where
  start : ∃ c more, text = c :: more ∧ Text.isQuote c = false
  inLine : '\n' ∉ text

/-- What the longest match of such a table takes. -/
theorem plain_of_longestIn? {symbols : SymbolTable} (ht : symbols.InLine) {text : List Char}
    {symbol : String} (h : symbols.all.longestIn? text = some symbol) :
    Plain symbol.toList ∧ symbol.toList ++ text.drop symbol.length = text := by
  obtain ⟨definitions, rfl⟩ := ht.compiled
  obtain ⟨hmem, -⟩ := Matcher.of_longestIn? h
  obtain ⟨hfeed, hquote⟩ := ht.symbols symbol hmem
  have hne := ((Matcher.mem_symbols_ofSymbols _ symbol).1 hmem).2
  refine ⟨⟨?_, hfeed⟩, (Matcher.eq_append_drop_of_longestIn? h).symm⟩
  obtain ⟨c, more, heq⟩ := List.exists_cons_of_ne_nil (mt String.toList_eq_nil_iff.1 hne)
  exact ⟨c, more, heq, hquote c (by rw [heq]; rfl)⟩

/-! ### The mark of a lexer -/

/-- The marks of a lexer that has read one part of its source and stands before the rest: the one behind
what was read and, if a string comes next, the one behind that string. -/
inductive Marks (read : List Char) : List Char → LineMark → Prop where
  | behind {rest : List Char} : Marks read rest (.behind read)
  | ahead {quote : Char} {after : List Char} (hq : Text.isQuote quote = true) :
    Marks read (quote :: after) (.behind (read ++ quote :: (stringTail quote after).1))

theorem Marks.eq_behind {read rest : List Char} {mark : LineMark} (h : Marks read rest mark)
    (hrest : ∀ c after, rest = c :: after → Text.isQuote c = false) : mark = .behind read := by
  cases h with
  | behind => rfl
  | ahead hq =>
    rw [hrest _ _ rfl] at hq
    cases hq

theorem Marks.locate {read rest : List Char} {mark : LineMark} (h : Marks read rest mark)
    (offset : Nat) : mark.locate (read ++ rest) offset = Location.find (read ++ rest) offset := by
  cases h with
  | behind => exact LineMark.locate_behind read rest offset
  | @ahead quote after hq =>
    have hsplit : read ++ quote :: after =
        (read ++ quote :: (stringTail quote after).1) ++ (stringTail quote after).2.1 := by
      rw [List.append_assoc, List.cons_append, stringTail_append]
    rw [hsplit]
    exact LineMark.locate_behind _ _ offset

/-- Going through a string leaves the mark behind it, whether it was looked at before or not. -/
theorem Marks.through_string {read after : List Char} {quote : Char} {mark : LineMark}
    (h : Marks read (quote :: after) mark) (hq : Text.isQuote quote = true) :
    mark.through (byteCount read + quote.utf8Size) (stringTail quote after).1 =
      .behind (read ++ quote :: (stringTail quote after).1) := by
  have hne : '\n' ∉ [quote] := by
    rintro hmem
    obtain rfl := List.mem_singleton.1 hmem
    cases hq
  have hbehind : LineMark.behind (read ++ quote :: (stringTail quote after).1) =
      (LineMark.behind read).through (byteCount read + quote.utf8Size)
        (stringTail quote after).1 := by
    rw [← List.singleton_append, ← List.append_assoc, LineMark.behind_append,
      LineMark.behind_append_of_not_mem hne, byteCount_append]
    rfl
  cases h with
  | behind => exact hbehind.symm
  | ahead => rw [hbehind, LineMark.through_again]

/-- A lexer has read the characters `read` of a source, and its mark is one of theirs. -/
structure Tracked (symbols : SymbolTable) (source read : List Char) (l : Lexer) : Prop where
  table : l.symbols = symbols
  split : l.split = []
  text : l.source = source
  halves : source = read ++ l.rest
  position : l.position = byteCount read
  marks : Marks read l.rest l.mark

/-- A lexer whose mark is right for what it has read of a source. -/
def Tracking (symbols : SymbolTable) (source : List Char) (l : Lexer) : Prop :=
  ∃ read, Tracked symbols source read l

section Keep
variable {symbols : SymbolTable} {source read text rest : List Char} {l : Lexer}

theorem Tracked.locate (h : Tracked symbols source read l) (offset : Nat) :
    l.locate offset = Location.find source offset := by
  rw [Lexer.locate, h.text, h.halves]
  exact h.marks.locate offset

theorem Tracked.tracking (h : Tracked symbols source read l) : Tracking symbols source l := ⟨read, h⟩

/-- Reading on moves what was read, if the mark is moved with it. -/
theorem Tracked.past (h : Tracked symbols source read l) (hrest : l.rest = text ++ rest)
    {mark : LineMark} (hmark : mark = .behind (read ++ text)) :
    Tracked symbols source (read ++ text) { l.past text rest with mark } where
  table := h.table
  split := h.split
  text := h.text
  halves := by
    rw [h.halves, hrest, List.append_assoc]
    rfl
  position := by
    rw [byteCount_append, ← h.position]
    rfl
  marks := hmark ▸ .behind

theorem Tracked.mark_eq_behind (h : Tracked symbols source read l)
    (hrest : ∀ c after, l.rest = c :: after → Text.isQuote c = false) : l.mark = .behind read :=
  h.marks.eq_behind hrest

theorem Tracked.mark_of_plain (h : Tracked symbols source read l) (hrest : l.rest = text ++ rest)
    (hp : Plain text) : l.mark = .behind (read ++ text) := by
  obtain ⟨c, more, rfl, hc⟩ := hp.start
  rw [LineMark.behind_append_of_not_mem hp.inLine]
  refine h.mark_eq_behind fun c' after heq => ?_
  rw [hrest] at heq
  obtain ⟨rfl, -⟩ := List.cons.inj heq
  exact hc

theorem Tracked.past_plain (h : Tracked symbols source read l) (hrest : l.rest = text ++ rest)
    (hp : Plain text) : Tracked symbols source (read ++ text) (l.past text rest) :=
  h.past hrest (h.mark_of_plain hrest hp)

/-! ### Skipping -/

theorem skip_nil (h : l.rest = []) : skip l = (.ok (), l) := by
  rw [skip]
  split <;> simp_all

theorem skip_visible {c : Char} (h : l.rest = c :: rest)
    (hline : ∀ text, c = '/' → rest = '/' :: text → False)
    (hblock : ∀ text, c = '/' → rest = '*' :: text → False)
    (hblank : ¬ Text.isBlank c = true) : skip l = (.ok (), l) := by
  rw [skip]
  split
  · rfl
  · rename_i text heq
    rw [h] at heq
    obtain ⟨rfl, rfl⟩ := List.cons.inj heq
    exact (hline text rfl rfl).elim
  · rename_i text heq
    rw [h] at heq
    obtain ⟨rfl, rfl⟩ := List.cons.inj heq
    exact (hblock text rfl rfl).elim
  · rename_i heq
    rw [h] at heq
    obtain ⟨rfl, rfl⟩ := List.cons.inj heq
    rw [if_neg hblank]

/-- A lexer that stands before a token or at the end: there is nothing left to skip. -/
structure Ready (symbols : SymbolTable) (source read : List Char) (l : Lexer) : Prop
    extends Tracked symbols source read l where
  skipped : skip l = (.ok (), l)
  visible : ∀ c after, l.rest = c :: after → ¬ Text.isBlank c = true

/-- A character of a class that no quote belongs to is no quote. -/
theorem isQuote_eq_false {p : Char → Bool} (hsingle : p '\'' = false) (hdouble : p '"' = false)
    {c : Char} (h : p c = true) : Text.isQuote c = false := by
  by_contra hq
  rw [Bool.not_eq_false, Text.isQuote, Bool.or_eq_true, beq_iff_eq, beq_iff_eq] at hq
  rcases hq with rfl | rfl
  · rw [hsingle] at h
    cases h
  · rw [hdouble] at h
    cases h

/-- A block comment, whose line feeds are counted in bulk, is read like any other text. -/
theorem Tracked.past_comment (h : Tracked symbols source read l) {body : List Char}
    (hrest : l.rest = '/' :: '*' :: (body ++ '*' :: '/' :: rest)) :
    let block := Comment.Block.ofBody Char.utf8Size (l.position + 2) body
    let mark : LineMark := ⟨l.mark.line + block.newlines, block.lastLineStart.getD l.mark.start⟩
    Tracked symbols source (read ++ ('/' :: '*' :: body ++ ['*', '/']))
      { l with rest, position := block.stop, mark } := by
  intro block mark
  have hsplit : l.rest = ('/' :: '*' :: body ++ ['*', '/']) ++ rest := by simp [hrest]
  have hbehind : l.mark = .behind read := h.mark_eq_behind fun c after heq => by
    rw [hrest] at heq
    obtain ⟨rfl, -⟩ := List.cons.inj heq
    rfl
  have hopen : LineMark.behind (read ++ ['/', '*']) = l.mark := by
    rw [LineMark.behind_append_of_not_mem (by decide), hbehind]
  have hstart : l.mark.start ≤ l.position + 2 := by
    rw [hbehind, h.position]
    exact Nat.le_add_right_of_le (LineMark.start_behind_le read)
  have hmark : mark = .behind (read ++ ('/' :: '*' :: body ++ ['*', '/'])) := by
    have hread : read ++ ('/' :: '*' :: body ++ ['*', '/']) =
        (read ++ ['/', '*'] ++ body) ++ ['*', '/'] := by simp
    rw [hread, LineMark.behind_append_of_not_mem (by decide), LineMark.behind_append, hopen,
      byteCount_append, ← h.position]
    exact (LineMark.through_body hstart body).symm
  have hstop : block.stop = l.position + byteCount ('/' :: '*' :: body ++ ['*', '/']) := by
    rw [byteCount_append, byteCount_cons, byteCount_cons]
    show l.position + 2 + byteCount body + 1 + 1 = l.position + (1 + (1 + byteCount body) + 2)
    omega
  have hnext := h.past hsplit hmark
  exact ⟨hnext.table, hnext.split, hnext.text, hnext.halves, hstop.trans hnext.position, hnext.marks⟩

/-- Blanks and comments are skipped with the mark behind them. -/
theorem Tracked.skip (h : Tracked symbols source read l) :
    (∃ read' l', skip l = (.ok (), l') ∧ Ready symbols source read' l') ∨
      ∃ e l', skip l = (.error e, l') ∧ Tracking symbols source l' := by
  fun_induction Lexer.skip l generalizing read with
  | case1 l hr =>
    refine .inl ⟨read, l, rfl, h, skip_nil hr, fun c after heq => ?_⟩
    rw [hr] at heq
    cases heq
  | case2 l text hr _ line =>
    rename_i ih
    have hrest : l.rest = ('/' :: '/' :: line.1) ++ line.2 := by
      rw [hr, List.cons_append, List.cons_append, Comment.splitLine_append]
    have hline : '\n' ∉ line.1 := newline_not_mem_run rfl text
    refine ih (h.past_plain hrest ⟨⟨'/', _, rfl, rfl⟩, ?_⟩)
    exact List.not_mem_cons_of_ne_of_not_mem (by decide)
      (List.not_mem_cons_of_ne_of_not_mem (by decide) hline)
  | case3 l text hr hs => exact .inr ⟨_, l, rfl, h.tracking⟩
  | case4 l text hr body rest hs _ block mark =>
    rename_i ih
    exact ih (h.past_comment (by rw [hr, Comment.eq_append_of_splitClose? hs]))
  | case5 l c rest hline hblock hr hblank =>
    rename_i ih
    have hbehind : l.mark = .behind read := h.mark_eq_behind fun c' after heq => by
      rw [hr] at heq
      obtain ⟨rfl, -⟩ := List.cons.inj heq
      exact isQuote_eq_false (by decide) (by decide) hblank
    have hmark : (l.mark.through l.position [c]) = .behind (read ++ [c]) := by
      rw [LineMark.behind_append, hbehind, h.position]
    exact ih (h.past hr hmark)
  | case6 l c rest hline hblock hr hblank =>
    refine .inl ⟨read, l, rfl, h, skip_visible hr hline hblock hblank, fun c' after heq => ?_⟩
    rw [hr] at heq
    obtain ⟨rfl, -⟩ := List.cons.inj heq
    exact hblank

end Keep

/-! ### Requests -/

section Requests
variable {symbols : SymbolTable} {source read text rest : List Char} {l : Lexer}

/-- A request that first skips keeps track if it does so where there is nothing to skip. -/
theorem Tracking.advance_bind {α : Type} (h : Tracking symbols source l)
    {request : Unit → Lexing α}
    (hr : ∀ read l', Ready symbols source read l' → Tracking symbols source (request () l').2) :
    Tracking symbols source ((advance >>= request) l).2 := by
  obtain ⟨read, h⟩ := h
  have hadvance : advance l = skip l := by
    show (if l.split.isEmpty then skip l else (.ok (), l)) = _
    rw [h.split]
    rfl
  rw [Lexing.bind_apply, hadvance]
  rcases h.skip with ⟨read', l', heq, hready⟩ | ⟨e, l', heq, htracking⟩
  · rw [heq]
    exact hr read' l' hready
  · rw [heq]
    exact htracking

theorem Tracking.advance (h : Tracking symbols source l) :
    Tracking symbols source (Lexer.advance l).2 := by
  rw [← bind_pure Lexer.advance]
  exact h.advance_bind fun _ _ hready => hready.tracking

theorem Tracking.peekByte? (h : Tracking symbols source l) :
    Tracking symbols source (Lexer.peekByte? l).2 :=
  h.advance_bind fun _ _ hready => hready.tracking

theorem Ready.advance_bind {α : Type} (h : Ready symbols source read l)
    (request : Unit → Lexing α) : (advance >>= request) l = request () l := by
  have hadvance : advance l = (.ok (), l) := by
    show (if l.split.isEmpty then skip l else (.ok (), l)) = _
    rw [h.split, ← h.skipped]
    rfl
  rw [Lexing.bind_apply, hadvance]

theorem Tracked.readable (h : Tracked symbols source read l) :
    l.readable = l.rest := by
  simp [Lexer.readable, h.split]

/-- Taking a token keeps track, and moves the mark no further. -/
theorem Tracked.take (h : Tracked symbols source read l) (kind : TokenKind)
    (hrest : l.rest = text ++ rest) (hmark : l.mark = .behind (read ++ text)) :
    Tracked symbols source (read ++ text) (take kind text rest l).2 ∧
      (take kind text rest l).2.mark = l.mark := by
  have hpast := h.past hrest hmark
  cases kind
  all_goals
    exact ⟨⟨hpast.table, hpast.split, hpast.text, hpast.halves, hpast.position, hpast.marks⟩, rfl⟩

/-- What a request for a token leaves: a lexer that keeps track, with a mark that was also right before
the token. -/
def Scanned (symbols : SymbolTable) (source read rest : List Char) (l : Lexer) : Prop :=
  Tracking symbols source l ∧ Marks read rest l.mark

theorem Tracked.scanned (h : Tracked symbols source read l) :
    Scanned symbols source read l.rest l := ⟨h.tracking, h.marks⟩

theorem Tracked.take_plain (h : Tracked symbols source read l)
    (kind : TokenKind) (hrest : l.rest = text ++ rest) (hp : Plain text) :
    Scanned symbols source read l.rest ((some <$> Lexer.take kind text rest) l).2 := by
  obtain ⟨htracked, hmark⟩ := h.take kind hrest (h.mark_of_plain hrest hp)
  rw [Lexing.snd_map]
  exact ⟨htracked.tracking, hmark ▸ h.marks⟩

/-- A string is gone through to its end or to where it breaks off; the mark is behind it either way. -/
theorem Tracked.takeString (h : Tracked symbols source read l) {quote : Char}
    {after : List Char} (hq : Text.isQuote quote = true) (hrest : l.rest = quote :: after) :
    Scanned symbols source read l.rest ((some <$> Lexer.takeString quote after) l).2 := by
  have hmark := (hrest ▸ h.marks).through_string hq
  have hahead : Marks read (quote :: after) (.behind (read ++ quote :: (stringTail quote after).1)) :=
    .ahead hq
  have happend := stringTail_append quote after
  rw [← h.position] at hmark
  rw [Lexing.snd_map, Lexer.takeString, hrest]
  simp only [Lexing.bind_apply, Lexing.get_apply, Lexing.set_apply]
  generalize stringTail quote after = scanned at hmark hahead happend
  obtain ⟨tail, behind, ending⟩ := scanned
  have hnoted : Tracked symbols source read
      { l with mark := l.mark.through (l.position + quote.utf8Size) tail } :=
    ⟨h.table, h.split, h.text, h.halves, h.position, by rw [hmark, hrest]; exact hahead⟩
  cases ending with
  | closed =>
    have hsplit : l.rest = (quote :: tail) ++ behind := by rw [hrest, ← happend, List.cons_append]
    obtain ⟨htracked, hsame⟩ := hnoted.take .string hsplit hmark
    refine ⟨htracked.tracking, ?_⟩
    rw [hsame]
    exact hrest ▸ hnoted.marks
  | unterminated => exact ⟨hnoted.tracking, hrest ▸ hnoted.marks⟩

theorem snd_foundText (l : Lexer) : (Lexer.foundText l).2 = (Lexer.peekToken? l).2 := by
  unfold Lexer.foundText
  cases hpeek : Lexer.peekToken?.run l with
  | mk answer l' =>
    have hpeek : Lexer.peekToken? l = (answer, l') := hpeek
    rw [hpeek]
    rcases answer with e | token
    · rfl
    · cases token <;> rfl

variable (ht : symbols.InLine)
include ht

theorem Ready.nextToken? (h : Ready symbols source read l) :
    Scanned symbols source read l.rest (Lexer.nextToken? l).2 := by
  rw [Lexer.nextToken?, h.advance_bind]
  simp only [Lexing.bind_apply, Lexing.get_apply, h.readable]
  have hscanned := h.scanned
  cases hrest : l.rest with
  | nil =>
    rw [hrest] at hscanned
    exact hscanned
  | cons c after =>
    rw [hrest] at hscanned
    have htake {kind : TokenKind} {text rest : List Char} (happend : text ++ rest = c :: after)
        (hc : Text.isQuote c = false) (hfeed : '\n' ∉ text) (hne : text ≠ []) :
        Scanned symbols source read (c :: after)
          ((some <$> Lexer.take kind text rest) l).2 := by
      obtain ⟨c', more, rfl⟩ := List.exists_cons_of_ne_nil hne
      obtain ⟨rfl, -⟩ := List.cons.inj happend
      rw [← hrest] at happend ⊢
      exact h.take_plain kind happend.symm ⟨⟨c', more, rfl, hc⟩, hfeed⟩
    simp only
    by_cases hzero : c = '0'
    · subst hzero
      rw [if_pos rfl]
      exact htake (fromZero_append _) rfl (newline_not_mem_fromZero after) (fst_fromZero_ne_nil after)
    by_cases hdecimal : (c.isDigit || (c = '.' && after.head?.any Char.isDigit)) = true
    · rw [if_neg hzero, if_pos hdecimal]
      have hc : Text.isQuote c = false :=
        isQuote_eq_false (p := fun c => c.isDigit || (c = '.' && after.head?.any Char.isDigit)) rfl rfl
          hdecimal
      exact htake (decimal_append _) hc (newline_not_mem_decimal _) (fst_decimal_ne_nil hdecimal)
    by_cases hident : Text.isIdentStart c = true
    · rw [if_neg hzero, if_neg hdecimal, if_pos hident]
      have hc : Text.isQuote c = false := isQuote_eq_false rfl rfl hident
      exact htake (identifier_append _) hc (newline_not_mem_identifier hident after)
        (List.cons_ne_nil _ _)
    rw [if_neg hzero, if_neg hdecimal, if_neg hident]
    by_cases hquote : Text.isQuote c = true
    · rw [if_pos hquote, ← hrest]
      exact h.takeString hquote hrest
    rw [if_neg hquote, Lexing.snd_map, takeSymbol]
    simp only [Lexing.bind_apply, Lexing.get_apply, hrest, h.table]
    cases hlong : symbols.all.longestIn? (c :: after) with
    | none => exact hscanned
    | some symbol =>
      obtain ⟨hplain, happend⟩ := plain_of_longestIn? ht hlong
      have hscanned := h.take_plain .symbol (hrest.trans happend.symm) hplain
      rwa [Lexing.snd_map, hrest] at hscanned

/-- A token that is looked at is not taken, and only its line feeds are remembered. -/
theorem Tracking.peekToken? (h : Tracking symbols source l) :
    Tracking symbols source (Lexer.peekToken? l).2 := by
  rw [Lexer.peekToken?]
  refine h.advance_bind fun read l' hready => ?_
  obtain ⟨⟨_, htracked⟩, hmarks⟩ := hready.nextToken? ht
  exact ⟨read, htracked.table, htracked.split, htracked.text, hready.halves, hready.position, hmarks⟩

theorem Tracking.nextToken? (h : Tracking symbols source l) :
    Tracking symbols source (Lexer.nextToken? l).2 := by
  rw [Lexer.nextToken?]
  refine h.advance_bind fun read l' hready => ?_
  have hscanned := hready.nextToken? ht
  rw [Lexer.nextToken?, hready.advance_bind] at hscanned
  exact hscanned.1

theorem Tracking.consumeSymbol? (h : Tracking symbols source l)
    (group : OperatorGroup) :
    Tracking symbols source (Lexer.consumeSymbol? group l).2 := by
  rw [Lexer.consumeSymbol?]
  refine h.advance_bind fun read l' hready => ?_
  simp only [Lexing.bind_apply, Lexing.get_apply, hready.readable, hready.table]
  split
  · exact hready.tracking
  cases (symbols.group? group.name).bind (·.longestIn? l'.rest) with
  | none => exact hready.tracking
  | some symbol =>
    dsimp only
    split
    · rename_i hlong
      obtain ⟨hplain, happend⟩ := plain_of_longestIn? ht hlong
      have hpast := hready.past_plain happend.symm hplain
      exact ⟨_, hpast.table, hpast.split, hpast.text, hpast.halves, hpast.position, hpast.marks⟩
    · exact hready.tracking

theorem Tracking.consumeText (h : Tracking symbols source l) (text : String) :
    Tracking symbols source (Lexer.consumeText text l).2 := by
  rw [Lexer.consumeText]
  refine h.advance_bind fun read l' hready => ?_
  simp only [Lexing.bind_apply, Lexing.get_apply, hready.readable, hready.table]
  split
  · rename_i hlong
    obtain ⟨hplain, happend⟩ := plain_of_longestIn? ht (of_decide_eq_true (Bool.and_eq_true_iff.1 hlong).2)
    exact (hready.past_plain happend.symm hplain).tracking
  · exact hready.tracking

omit ht

theorem Tracking.nextIdentifier? (h : Tracking symbols source l) :
    Tracking symbols source (Lexer.nextIdentifier? l).2 := by
  rw [Lexer.nextIdentifier?]
  refine h.advance_bind fun read l' hready => ?_
  simp only [Lexing.bind_apply, Lexing.get_apply, hready.readable]
  cases hrest : l'.rest with
  | nil => exact hready.tracking
  | cons c after =>
    dsimp only
    split
    · rename_i hident
      have hplain : Plain (identifier (c :: after)).1 :=
        ⟨⟨c, _, rfl, isQuote_eq_false rfl rfl hident⟩, newline_not_mem_identifier hident after⟩
      exact (hready.take_plain .identifier (hrest.trans (identifier_append _).symm) hplain).1
    · exact hready.tracking

/-- A byte of ASCII that is no quote is taken as the character that it is. -/
theorem Ready.pastByte (h : Ready symbols source read l) {b : UInt8}
    (hascii : b < 128) (hquote : Text.isQuote (Char.ofUInt8 b) = false)
    (hnext : l.nextByte? = some b) : Tracking symbols source l.pastByte := by
  rw [nextByte?, h.split, List.nil_append] at hnext
  cases hrest : l.rest with
  | nil =>
    rw [hrest] at hnext
    cases hnext
  | cons c after =>
    have hbytes : Matcher.bytes [c] = String.utf8EncodeChar c := List.append_nil _
    rw [hrest, List.take_succ_cons, List.take_zero, hbytes] at hnext
    obtain ⟨hencode, hnat⟩ := encode_of_ascii hnext hascii
    have hc : c = Char.ofUInt8 b := Char.toNat_inj.1 hnat
    have hsize : c.utf8Size = 1 := by rw [← String.length_utf8EncodeChar, hencode, List.length_singleton]
    have hpast : l.pastByte = l.past [c] after := by
      simp [Lexer.pastByte, Lexer.past, h.split, hrest, hbytes, hencode, byteCount_singleton, hsize]
    have hfeed : '\n' ∉ [c] := by
      intro hmem
      obtain rfl := List.mem_singleton.1 hmem
      exact h.visible _ _ hrest (by decide)
    rw [hpast]
    exact (h.past_plain hrest ⟨⟨c, [], rfl, hc ▸ hquote⟩, hfeed⟩).tracking

theorem Tracking.consumeByte (h : Tracking symbols source l) {b : UInt8}
    (hascii : b < 128) (hquote : Text.isQuote (Char.ofUInt8 b) = false) :
    Tracking symbols source (Lexer.consumeByte b l).2 := by
  rw [Lexer.consumeByte]
  refine h.advance_bind fun read l' hready => ?_
  simp only [Lexing.bind_apply, Lexing.get_apply]
  split
  · rename_i hcond
    exact hready.pastByte hascii hquote hcond.1
  · exact hready.tracking

end Requests

/-! ### Sessions -/

/-- One request to a lexer. A single byte is asked for only if it is ASCII and no quote. -/
inductive Request where
  | advance
  | peek
  | peekByte
  | hasRemaining
  | consume (b : UInt8) (ascii : b < 128) (noQuote : Text.isQuote (Char.ofUInt8 b) = false)
  | consumeSymbol (group : OperatorGroup)
  | consumeText (text : String)
  | nextIdentifier
  | nextToken
  | peekToken
  | foundText

/-- The lexer after a request, whether it answered or faulted. -/
def Request.perform : Request → Lexer → Lexer
  | advance, l => (Lexer.advance.run l).2
  | peek, l => (Lexer.peek?.run l).2
  | peekByte, l => (Lexer.peekByte?.run l).2
  | hasRemaining, l => (Lexer.hasRemaining.run l).2
  | consume b _ _, l => ((Lexer.consumeByte b).run l).2
  | consumeSymbol group, l => ((Lexer.consumeSymbol? group).run l).2
  | consumeText text, l => ((Lexer.consumeText text).run l).2
  | nextIdentifier, l => (Lexer.nextIdentifier?.run l).2
  | nextToken, l => (Lexer.nextToken?.run l).2
  | peekToken, l => (Lexer.peekToken?.run l).2
  | foundText, l => (Lexer.foundText l).2

/-- The lexer after some requests, one after the other. -/
def after (l : Lexer) (requests : List Request) : Lexer :=
  requests.foldl (fun l request => request.perform l) l

section Sessions
variable {symbols : SymbolTable} {source : List Char} {l : Lexer}

theorem Tracking.perform (ht : symbols.InLine) (h : Tracking symbols source l) (request : Request) :
    Tracking symbols source (request.perform l) := by
  cases request with
  | advance => exact h.advance
  | peek => exact h.advance_bind fun _ _ hready => hready.tracking
  | peekByte => exact h.peekByte?
  | hasRemaining =>
    show Tracking symbols source (Lexer.hasRemaining l).2
    rw [Lexer.hasRemaining, ← map_eq_pure_bind, Lexing.snd_map]
    exact h.peekByte?
  | consume b ascii noQuote => exact h.consumeByte ascii noQuote
  | consumeSymbol group => exact h.consumeSymbol? ht group
  | consumeText text => exact h.consumeText ht text
  | nextIdentifier => exact h.nextIdentifier?
  | nextToken => exact h.nextToken? ht
  | peekToken => exact h.peekToken? ht
  | foundText =>
    show Tracking symbols source (Lexer.foundText l).2
    rw [snd_foundText]
    exact h.peekToken? ht

theorem Tracking.after (ht : symbols.InLine) (h : Tracking symbols source l)
    (requests : List Request) : Tracking symbols source (l.after requests) := by
  induction requests generalizing l with
  | nil => exact h
  | cons request requests ih => exact ih (h.perform ht request)

theorem tracking_ofSource (source : String) (symbols : SymbolTable) :
    Tracking symbols source.toList (ofSource source symbols) :=
  ⟨[], rfl, rfl, rfl, rfl, rfl, .behind⟩

end Sessions

/-- Whatever a lexer was asked for, and also after faults, it locates every offset where counting from the
start of the source does, if no symbol holds a line feed or starts with a quote; and no configured engine
has another table. -/
theorem locate_after :
    (∀ symbols : SymbolTable, symbols.InLine → ∀ (source : String) (requests : List Request)
      (offset : Nat), ((ofSource source symbols).after requests).locate offset =
        Location.find source.toList offset) ∧
    ∀ (σ : Type) (b : EngineBuilder σ) (engine : Engine σ), b.Configured → b.build = .ok engine →
      engine.symbols.InLine := by
  refine ⟨fun symbols ht source requests offset => ?_, fun σ b engine h hb => h.inLine hb⟩
  obtain ⟨read, h⟩ := (tracking_ofSource source symbols).after ht requests
  exact h.locate offset

/-- Looking at a token, taking it and standing before the next one, with a line feed in a comment and one in
a string, under a table that a configured sign is in. -/
theorem locate_after_escaped_newline :
    ∃ (b : EngineBuilder Unit) (engine : Engine Unit), b.Configured ∧ b.build = .ok engine ∧
      engine.symbols.InLine ∧
      ((ofSource "/*\n*/ '\\\n' 1" engine.symbols).after
        [.peekToken, .consumeSymbol .unary, .nextToken, .advance]).locate 11 = ⟨3, 3⟩ := by
  have hconfigured := EngineBuilder.Configured.unary .start "√" fun v (w : World Unit) => (.ok v, w)
  have hin := locate_after.2 _ _ _ hconfigured rfl
  refine ⟨_, _, hconfigured, rfl, hin, ?_⟩
  rw [locate_after.1 _ hin]
  decide

end Lexer

end LatentExpr
