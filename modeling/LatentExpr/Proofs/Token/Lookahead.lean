import LatentExpr.Proofs.Token.Faulted

/-!
Looking ahead. A session is recorded step by step, of names the texts only. The steps that look at what comes next
without taking it may be left out of a session, and all other answers stay what they are (`transcript_without_looks`).
Two lexers that keep track of one source are compared by where they stand behind blanks and comments (`Level`): there
they have read the same, so they differ only in marks, which locate alike, and in the slots of their names.
-/
namespace LatentExpr

open Lexeme

namespace Lexer

/-! ### Sessions on record -/

/-- What a lexer answers, of names the texts only. -/
inductive Reply where
  | done
  | byte (b : Option UInt8)
  | character (c : Option Char)
  | flag (b : Bool)
  | name (text : Option String)
  | token (t : Option (Piece × Span × Option String))
  | text (s : String)
  | location (l : Location)
deriving DecidableEq

/-- A token with its place and the text of its name. -/
def Reply.ofToken (t : Token) : Piece × Span × Option String := (t.piece, t.span, t.name.map Name.text)

/-- What a request answers. -/
def Request.reply : Request → Lexer → Except LexicalError Reply
  | advance, l => (Lexer.advance.run l).1.map fun _ => .done
  | peek, l => (Lexer.peek?.run l).1.map .character
  | peekByte, l => (Lexer.peekByte?.run l).1.map .byte
  | hasRemaining, l => (Lexer.hasRemaining.run l).1.map .flag
  | consume b _ _, l => ((Lexer.consumeByte b).run l).1.map .flag
  | consumeSymbol group, l =>
    ((Lexer.consumeSymbol? group).run l).1.map fun name => .name (name.map Name.text)
  | consumeText text, l => ((Lexer.consumeText text).run l).1.map .flag
  | nextIdentifier, l => (Lexer.nextIdentifier?.run l).1.map fun t => .token (t.map Reply.ofToken)
  | nextToken, l => (Lexer.nextToken?.run l).1.map fun t => .token (t.map Reply.ofToken)
  | peekToken, l => (Lexer.peekToken?.run l).1.map fun t => .token (t.map Reply.ofToken)
  | foundText, l => .ok (.text (Lexer.foundText l).1)

/-- Whether a request takes nothing. -/
def Request.looks : Request → Bool
  | advance | peek | peekByte | hasRemaining | peekToken | foundText => true
  | consume .. | consumeSymbol _ | consumeText _ | nextIdentifier | nextToken => false

/-- A step of a session: a request, or an offset that is to be located. -/
inductive Step where
  | request (request : Request)
  | locate (offset : Nat)

namespace Step

def reply : Step → Lexer → Except LexicalError Reply
  | request r, l => r.reply l
  | locate offset, l => .ok (.location (l.locate offset))

def perform : Step → Lexer → Lexer
  | request r, l => r.perform l
  | locate _, l => l

def looks : Step → Bool
  | request r => r.looks
  | locate _ => false

end Step

/-- The steps of a session with what each of them was answered. A fault is an answer, too. -/
def transcript (l : Lexer) : List Step → List (Step × Except LexicalError Reply)
  | [] => []
  | step :: steps => (step, step.reply l) :: transcript (step.perform l) steps

/-! ### Skipping again -/

section
variable {symbols : SymbolTable} {source read text rest body : List Char} {l l' : Lexer} {c : Char}

theorem skip_line (h : l.rest = '/' :: '/' :: text) :
    skip l = skip (l.past ('/' :: '/' :: (Comment.splitLine text).1) (Comment.splitLine text).2) := by
  fun_cases skip l with
  | case2 =>
    rename_i hr line _
    rw [h] at hr
    cases hr
    rfl
  | case1 | case3 | case4 | case5 | case6 => simp_all

theorem skip_unclosed (h : l.rest = '/' :: '*' :: text) (hs : Comment.splitClose? text = none) :
    skip l = (.error (l.fault .unterminatedComment l.position (byteCount l.source) l.position), l) := by
  fun_cases skip l with
  | case3 => rfl
  | case1 | case2 | case4 | case5 | case6 => simp_all

theorem skip_block (h : l.rest = '/' :: '*' :: text) (hs : Comment.splitClose? text = some (body, rest)) :
    let block := Comment.Block.ofBody Char.utf8Size (l.position + 2) body
    skip l = skip { l with
      rest, position := block.stop, mark := ⟨l.mark.line + block.newlines, block.lastLineStart.getD l.mark.start⟩ } := by
  fun_cases skip l with
  | case4 =>
    rename_i hr _ _ hs' _ _ _
    rw [h] at hr
    cases hr
    rw [hs] at hs'
    cases hs'
    rfl
  | case1 | case2 | case3 | case5 | case6 => simp_all

theorem skip_blank (h : l.rest = c :: rest) (hblank : Text.isBlank c = true) :
    skip l = skip { l.past [c] rest with mark := l.mark.through l.position [c] } := by
  have hc : '/' ≠ c := by
    rintro rfl
    cases hblank
  fun_cases skip l with
  | case5 => simp_all
  | case1 | case2 | case3 | case4 | case6 => simp_all

theorem skip_skip (l : Lexer) : skip (skip l).2 = skip l := by
  fun_induction skip l with
  | case1 l hr => exact skip_nil hr
  | case2 | case4 | case5 =>
    rename_i ih
    exact ih
  | case3 l text hr hs => exact skip_unclosed hr hs
  | case6 l c rest hline hblock hr hblank => exact skip_visible hr hline hblock hblank

theorem rest_skip_eq (h : l.rest = l'.rest) : (skip l).2.rest = (skip l').2.rest := by
  fun_induction skip l generalizing l' with
  | case1 l hr =>
    rw [skip_nil (h.symm.trans hr), h]
  | case2 l text hr =>
    rename_i ih
    rw [skip_line (h.symm.trans hr)]
    exact ih rfl
  | case3 l text hr hs => rw [skip_unclosed (h.symm.trans hr) hs, h]
  | case4 l text hr body rest hs =>
    rename_i ih
    rw [skip_block (h.symm.trans hr) hs]
    exact ih rfl
  | case5 l c rest hline hblock hr hblank ih =>
    rw [skip_blank (h.symm.trans hr) hblank]
    exact ih rfl
  | case6 l c rest hline hblock hr hblank =>
    rw [skip_visible (h.symm.trans hr) hline hblock hblank, h]

end

/-! ### Two lexers -/

/-- A lexer with another mark and other names. -/
def relabel (l : Lexer) (mark : LineMark) (interner : Interner) : Lexer := { l with mark, interner }

theorem rest_pastByte_relabel (l : Lexer) (mark : LineMark) (interner : Interner) :
    (l.relabel mark interner).pastByte.rest = l.pastByte.rest := by
  unfold pastByte relabel
  cases l.split <;> rfl

/-- Two lexers that keep track of one source and stand at one place of it behind blanks and comments. -/
structure Level (symbols : SymbolTable) (source : List Char) (l l' : Lexer) : Prop where
  left : Tracking symbols source l
  right : Tracking symbols source l'
  ahead : (skip l).2.rest = (skip l').2.rest

/-- Two answers that show the same, from lexers that go on at one text. -/
structure Alike {α β : Type} (shown : α → β) (a a' : Except LexicalError α × Lexer) : Prop where
  answer : a.1.map shown = a'.1.map shown
  rest : a.2.rest = a'.2.rest

section
variable {symbols : SymbolTable} {source read read' : List Char} {l l' : Lexer}

theorem Level.of_rest (h : Tracking symbols source l) (h' : Tracking symbols source l') (hrest : l.rest = l'.rest) :
    Level symbols source l l' := ⟨h, h', rest_skip_eq hrest⟩

/-- Lexers that keep track and stand at one text have read the same, and differ in marks and names at most. -/
theorem Tracked.eq_of_rest (h : Tracked symbols source read l) (h' : Tracked symbols source read' l')
    (hrest : l.rest = l'.rest) : read = read' ∧ l' = l.relabel l'.mark l'.interner := by
  have hread : read = read' := by
    have hhalves := h.halves.symm.trans h'.halves
    rw [hrest] at hhalves
    exact List.append_cancel_right hhalves
  refine ⟨hread, ?_⟩
  obtain ⟨htable, hsplit, htext, -, hposition, -⟩ := h
  obtain ⟨htable', hsplit', htext', -, hposition', -⟩ := h'
  cases l
  cases l'
  simp_all [relabel]

theorem Tracking.advance_eq_skip (h : Tracking symbols source l) : Lexer.advance l = skip l := by
  obtain ⟨_, h⟩ := h
  exact Lexer.advance_eq_skip (⟨h.split, h.table, rfl⟩ : l.At symbols l.rest)

/-- A lexer that faulted at a comment stands before one that is not closed. -/
theorem Tracked.skipText_of_fault (h : Tracked symbols source read l') {e : LexicalError}
    (hskip : Lexer.skip l = (.error e, l')) : skipText l'.rest = none := by
  have hagain : Lexer.skip l' = (.error e, l') := by
    have htwice := skip_skip l
    rwa [hskip] at htwice
  rcases (⟨h.split, h.table, rfl⟩ : l'.At symbols l'.rest).skip with ⟨_, _, -, hok, -⟩ | ⟨_, _, hnone, -⟩
  · rw [hagain] at hok
    cases hok
  · exact hnone

/-- Two lexers that are level come to stand before one token, or they fault alike at one comment. -/
theorem Level.advance_cases (h : Level symbols source l l') :
    (∃ read m mark interner, Ready symbols source read m ∧ Ready symbols source read (m.relabel mark interner) ∧
      Lexer.advance l = (.ok (), m) ∧ Lexer.advance l' = (.ok (), (m.relabel mark interner))) ∨
    ∃ e m m', Lexer.advance l = (.error e, m) ∧ Lexer.advance l' = (.error e, m') ∧ Level symbols source m m' := by
  have hahead := h.ahead
  rw [← h.left.advance_eq_skip, ← h.right.advance_eq_skip] at hahead
  rcases h.left.advance_cases with ⟨read, m, hready, hok⟩ | ⟨read, m, htracked, hfault⟩
  · rcases h.right.advance_cases with ⟨read', m', hready', hok'⟩ | ⟨read', m', htracked', hfault'⟩
    · rw [hok, hok'] at hahead
      obtain ⟨rfl, hsame⟩ := hready.toTracked.eq_of_rest hready'.toTracked hahead
      rw [hsame] at hready' hok'
      exact .inl ⟨read, m, _, _, hready, hready', hok, hok'⟩
    · rw [hok, hfault'] at hahead
      have hnone := htracked'.skipText_of_fault (h.right.advance_eq_skip.symm.trans hfault')
      rw [← hahead, hready.skipText] at hnone
      cases hnone
  · rcases h.right.advance_cases with ⟨read', m', hready', hok'⟩ | ⟨read', m', htracked', hfault'⟩
    · rw [hfault, hok'] at hahead
      have hnone := htracked.skipText_of_fault (h.left.advance_eq_skip.symm.trans hfault)
      rw [hahead, hready'.skipText] at hnone
      cases hnone
    · rw [hfault, hfault'] at hahead
      obtain ⟨rfl, -⟩ := htracked.eq_of_rest htracked' hahead
      refine .inr ⟨_, m, m', hfault, ?_, .of_rest htracked.tracking htracked'.tracking hahead⟩
      rw [hfault', fault, fault, htracked.locate, htracked'.locate, htracked.text, htracked'.text,
        htracked.position, htracked'.position]

/-- Requests that first skip are answered alike where they are behind the blanks. -/
theorem Level.request {α β : Type} {shown : α → β} {request : Lexing α} {body : Unit → Lexing α}
    (h : Level symbols source l l') (hrequest : request = Lexer.advance >>= body)
    (hkeeps : ∀ l, Tracking symbols source l → Tracking symbols source (request l).2)
    (hbody : ∀ read m mark interner, Ready symbols source read m →
      Ready symbols source read (m.relabel mark interner) →
        Alike shown (body () m) (body () (m.relabel mark interner))) :
    (request l).1.map shown = (request l').1.map shown ∧ Level symbols source (request l).2 (request l').2 := by
  subst hrequest
  have hleft := hkeeps l h.left
  have hright := hkeeps l' h.right
  rw [Lexing.bind_apply] at hleft hright
  rw [Lexing.bind_apply, Lexing.bind_apply]
  rcases h.advance_cases with ⟨read, m, mark, interner, hready, hready', hok, hok'⟩ |
    ⟨e, m, m', hfault, hfault', hlevel⟩
  · rw [hok] at hleft ⊢
    rw [hok'] at hright ⊢
    have halike := hbody read m mark interner hready hready'
    exact ⟨halike.answer, .of_rest hleft hright halike.rest⟩
  · rw [hfault, hfault']
    exact ⟨rfl, hlevel⟩

/-! ### Requests of two lexers -/

/-- Faults at one place are alike if they are located alike. -/
theorem error_congr {α : Type} {fault : LexicalFault} {span : Span} {location location' : Location}
    (h : location = location') :
    (Except.error ⟨fault, span, location⟩ : Except LexicalError α) = .error ⟨fault, span, location'⟩ := by rw [h]

/-- What is shown of a token that is taken does not depend on marks and names. -/
theorem alike_take (kind : TokenKind) (text rest : List Char) (m : Lexer) (mark : LineMark) (interner : Interner) :
    Alike (fun t : Option Token => Reply.token (t.map Reply.ofToken)) ((some <$> Lexer.take kind text rest) m)
      ((some <$> Lexer.take kind text rest) (m.relabel mark interner)) := by
  -- a name shows the text that it was interned for
  have hname : (m.interner.intern (String.ofList text)).1.text = (interner.intern (String.ofList text)).1.text := by
    rw [Interner.text_intern, Interner.text_intern]
  have hshown := congrArg (fun name : String => (Except.ok (Reply.token (some
    (⟨kind, String.ofList text⟩, .between m.position (m.past text rest).position, some name))) :
      Except LexicalError Reply)) hname
  rw [Lexing.map_apply, Lexing.map_apply]
  cases kind
  · exact ⟨rfl, rfl⟩
  · exact ⟨rfl, rfl⟩
  · exact ⟨hshown, rfl⟩
  · exact ⟨hshown, rfl⟩

theorem Level.consumeByte (h : Level symbols source l l') {b : UInt8} (hascii : b < 128)
    (hquote : Text.isQuote (Char.ofUInt8 b) = false) :
    (Lexer.consumeByte b l).1.map Reply.flag = (Lexer.consumeByte b l').1.map Reply.flag ∧
      Level symbols source (Lexer.consumeByte b l).2 (Lexer.consumeByte b l').2 := by
  refine h.request rfl (fun _ h => h.consumeByte hascii hquote) fun read m mark interner hm hm' => ?_
  have hnext : (m.relabel mark interner).nextByte? = m.nextByte? := rfl
  have hrest : (m.relabel mark interner).rest = m.rest := rfl
  simp only [Lexing.bind_apply, Lexing.get_apply, hm.readable, hm'.readable, hm.table, hm'.table]
  rw [hnext, hrest]
  split
  · exact ⟨rfl, (rest_pastByte_relabel m mark interner).symm⟩
  · exact ⟨rfl, rfl⟩

theorem Level.nextIdentifier? (h : Level symbols source l l') :
    (Lexer.nextIdentifier? l).1.map (fun t => Reply.token (t.map Reply.ofToken)) =
        (Lexer.nextIdentifier? l').1.map (fun t => Reply.token (t.map Reply.ofToken)) ∧
      Level symbols source (Lexer.nextIdentifier? l).2 (Lexer.nextIdentifier? l').2 := by
  refine h.request rfl (fun _ h => h.nextIdentifier?) fun read m mark interner hm hm' => ?_
  have hrest : (m.relabel mark interner).rest = m.rest := rfl
  simp only [Lexing.bind_apply, Lexing.get_apply, hm.readable, hm'.readable, hrest]
  cases m.rest with
  | nil => exact ⟨rfl, rfl⟩
  | cons c after =>
    dsimp only
    split
    · exact alike_take .identifier _ _ m mark interner
    · exact ⟨rfl, rfl⟩

/-- A string is gone through alike; where it breaks off the fault is located behind it, by marks that are right. -/
theorem Ready.alike_takeString {m : Lexer} {mark : LineMark} {interner : Interner} (hm : Ready symbols source read m)
    (hm' : Ready symbols source read (m.relabel mark interner)) {quote : Char} {after : List Char}
    (hq : Text.isQuote quote = true) (hrest : m.rest = quote :: after) :
    Alike (fun t : Option Token => Reply.token (t.map Reply.ofToken)) ((some <$> Lexer.takeString quote after) m)
      ((some <$> Lexer.takeString quote after) (m.relabel mark interner)) := by
  obtain ⟨⟨_, hnoted⟩, -⟩ := hm.takeString hq hrest
  obtain ⟨⟨_, hnoted'⟩, -⟩ := hm'.takeString hq hrest
  rw [Lexing.snd_map, Lexer.takeString] at hnoted hnoted'
  rw [Lexing.map_apply, Lexing.map_apply, Lexer.takeString]
  simp only [Lexing.bind_apply, Lexing.get_apply, Lexing.set_apply] at hnoted hnoted' ⊢
  generalize stringTail quote after = scanned at *
  obtain ⟨tail, behind, ending⟩ := scanned
  cases ending with
  | closed => exact ⟨rfl, rfl⟩
  | unterminated =>
    let stop := (m.past (quote :: tail) behind).position
    have hlocate := (hnoted.locate stop).trans (hnoted'.locate stop).symm
    exact ⟨error_congr hlocate, rfl⟩

variable (ht : symbols.InLine)
include ht

theorem Level.consumeText (h : Level symbols source l l') (text : String) :
    (Lexer.consumeText text l).1.map Reply.flag = (Lexer.consumeText text l').1.map Reply.flag ∧
      Level symbols source (Lexer.consumeText text l).2 (Lexer.consumeText text l').2 := by
  refine h.request rfl (fun _ h => h.consumeText ht text) fun read m mark interner hm hm' => ?_
  have hrest : (m.relabel mark interner).rest = m.rest := rfl
  simp only [Lexing.bind_apply, Lexing.get_apply, hm.readable, hm'.readable, hm.table, hm'.table, hrest]
  split
  · exact ⟨rfl, rfl⟩
  · exact ⟨rfl, rfl⟩

theorem Level.consumeSymbol? (h : Level symbols source l l') (group : OperatorGroup) :
    (Lexer.consumeSymbol? group l).1.map (fun name => Reply.name (name.map Name.text)) =
        (Lexer.consumeSymbol? group l').1.map (fun name => Reply.name (name.map Name.text)) ∧
      Level symbols source (Lexer.consumeSymbol? group l).2 (Lexer.consumeSymbol? group l').2 := by
  refine h.request rfl (fun _ h => h.consumeSymbol? ht group) fun read m mark interner hm hm' => ?_
  have hrest : (m.relabel mark interner).rest = m.rest := rfl
  simp only [Lexing.bind_apply, Lexing.get_apply, hm.readable, hm'.readable, hm.table, hm'.table]
  rw [hrest]
  split
  · exact ⟨rfl, rfl⟩
  cases (symbols.group? group.name).bind (·.longestIn? m.rest) with
  | none => exact ⟨rfl, rfl⟩
  | some symbol =>
    dsimp only
    split
    · refine ⟨?_, rfl⟩
      simp only [Lexing.bind_apply, Lexing.set_apply, Lexing.pure_apply, Except.map, Option.map_some,
        Interner.text_intern]
    · exact ⟨rfl, rfl⟩

theorem Level.nextToken? (h : Level symbols source l l') :
    (Lexer.nextToken? l).1.map (fun t => Reply.token (t.map Reply.ofToken)) =
        (Lexer.nextToken? l').1.map (fun t => Reply.token (t.map Reply.ofToken)) ∧
      Level symbols source (Lexer.nextToken? l).2 (Lexer.nextToken? l').2 := by
  refine h.request rfl (fun _ h => h.nextToken? ht) fun read m mark interner hm hm' => ?_
  have hsame : (m.relabel mark interner).rest = m.rest := rfl
  simp only [Lexing.bind_apply, Lexing.get_apply, hm.readable, hm'.readable, hsame]
  cases hrest : m.rest with
  | nil => exact ⟨rfl, hsame⟩
  | cons c after =>
    dsimp only
    split
    · exact alike_take .number _ _ m mark interner
    split
    · exact alike_take .number _ _ m mark interner
    split
    · exact alike_take .identifier _ _ m mark interner
    split
    · rename_i hquote
      exact hm.alike_takeString hm' hquote hrest
    · have htaken (text rest : List Char) :=
        alike_take .symbol text rest m mark interner
      rw [Lexing.map_apply, Lexing.map_apply, takeSymbol]
      simp only [Lexing.map_apply, Lexing.bind_apply, Lexing.get_apply, hm.table, hm'.table, hsame] at htaken ⊢
      cases symbols.all.longestIn? m.rest with
      | none =>
        have hlocate := (hm.locate m.position).trans (hm'.locate m.position).symm
        exact ⟨error_congr hlocate, rfl⟩
      | some symbol => exact htaken symbol.toList (m.rest.drop symbol.length)

omit ht

/-! ### Looks -/

/-- A request that stays where it skipped to. -/
theorem rest_advance_bind {α : Type} {body : Unit → Lexing α} (hbody : ∀ l, (body () l).2.rest = l.rest) (l : Lexer) :
    ((Lexer.advance >>= body) l).2.rest = (Lexer.advance l).2.rest := by
  rw [Lexing.bind_apply]
  cases Lexer.advance l with
  | mk answer m =>
    cases answer with
    | error e => rfl
    | ok _ => exact hbody m

/-- A look leaves the lexer at the token that it looks at. -/
theorem Request.rest_perform {r : Request} (hr : r.looks = true) (l : Lexer) :
    (r.perform l).rest = (Lexer.advance l).2.rest := by
  cases r with
  | advance => rfl
  | peek => exact rest_advance_bind (fun _ => rfl) l
  | peekByte => exact rest_advance_bind (fun _ => rfl) l
  | hasRemaining =>
    show (Lexer.hasRemaining l).2.rest = _
    rw [Lexer.hasRemaining, ← map_eq_pure_bind, Lexing.snd_map]
    exact rest_advance_bind (fun _ => rfl) l
  | peekToken => exact rest_advance_bind (fun _ => rfl) l
  | foundText =>
    show (Lexer.foundText l).2.rest = _
    rw [snd_foundText]
    exact rest_advance_bind (fun _ => rfl) l
  | consume => cases hr
  | consumeSymbol => cases hr
  | consumeText => cases hr
  | nextIdentifier => cases hr
  | nextToken => cases hr

theorem Level.look (ht : symbols.InLine) (h : Level symbols source l l') {r : Request} (hr : r.looks = true) :
    Level symbols source (r.perform l) l' where
  left := h.left.perform ht r
  right := h.right
  ahead := by
    have hstands := Request.rest_perform hr l
    rw [h.left.advance_eq_skip] at hstands
    rw [rest_skip_eq hstands, skip_skip]
    exact h.ahead

theorem advance_advance (l : Lexer) : Lexer.advance (Lexer.advance l).2 = Lexer.advance l := by
  by_cases hsplit : l.split.isEmpty = true
  · have hadvance : Lexer.advance l = skip l := if_pos hsplit
    have hkept : (skip l).2.split = l.split := (onward_skip (List.isEmpty_iff.1 hsplit)).split
    have hagain : Lexer.advance (skip l).2 = skip (skip l).2 := if_pos (hkept ▸ hsplit)
    rw [hadvance, hagain, skip_skip]
  · have hadvance : Lexer.advance l = (.ok (), l) := if_neg hsplit
    rw [hadvance, hadvance]

/-- A request that first skips is answered behind the blanks as it is before them. -/
theorem request_of_advance {α : Type} {request : Lexing α} {body : Unit → Lexing α} {m : Lexer}
    (hrequest : request = Lexer.advance >>= body) (h : Lexer.advance l = (.ok (), m)) : request m = request l := by
  have hagain := advance_advance l
  rw [h] at hagain
  rw [hrequest, Lexing.bind_apply, Lexing.bind_apply, h, hagain]

/-- A token that is looked at is the one that would be taken, and so is a fault. -/
theorem fst_peekToken? (l : Lexer) : (Lexer.peekToken? l).1 = (Lexer.nextToken? l).1 := by
  rw [Lexer.peekToken?, Lexing.bind_apply]
  cases hadvance : Lexer.advance l with
  | mk answer m =>
    cases answer with
    | error e => rw [Lexer.nextToken?, Lexing.bind_apply, hadvance]
    | ok _ =>
      have hnext : Lexer.nextToken? m = Lexer.nextToken? l := request_of_advance rfl hadvance
      rw [← hnext]
      rfl

/-- A step that takes something is answered alike by two lexers that are level, and they stay so. -/
theorem Level.step (ht : symbols.InLine) (h : Level symbols source l l') {step : Step} (hstep : step.looks = false) :
    step.reply l = step.reply l' ∧ Level symbols source (step.perform l) (step.perform l') := by
  cases step with
  | locate offset =>
    obtain ⟨_, hleft⟩ := id h.left
    obtain ⟨_, hright⟩ := id h.right
    have hsame := (hleft.locate offset).trans (hright.locate offset).symm
    exact ⟨by rw [Step.reply, Step.reply, hsame], h⟩
  | request r =>
    cases r with
    | consume b ascii noQuote => exact h.consumeByte ascii noQuote
    | consumeSymbol group => exact h.consumeSymbol? ht group
    | consumeText text => exact h.consumeText ht text
    | nextIdentifier => exact h.nextIdentifier?
    | nextToken => exact h.nextToken? ht
    | advance => cases hstep
    | peek => cases hstep
    | peekByte => cases hstep
    | hasRemaining => cases hstep
    | peekToken => cases hstep
    | foundText => cases hstep

theorem Level.transcript (ht : symbols.InLine) (h : Level symbols source l l') (steps : List Step) :
    (l.transcript steps).filter (fun entry => !entry.1.looks) =
      l'.transcript (steps.filter fun step => !step.looks) := by
  induction steps generalizing l l' with
  | nil => rfl
  | cons step steps ih =>
    rw [Lexer.transcript, List.filter_cons, List.filter_cons]
    cases hstep : step.looks with
    | true =>
      -- a look is left out of both sides, and the run with it is level with the run without it
      cases step with
      | locate offset => cases hstep
      | request r => exact ih (h.look ht hstep)
    | false =>
      obtain ⟨hreply, hlevel⟩ := h.step ht hstep
      rw [Bool.not_false, if_pos rfl, if_pos rfl, Lexer.transcript, hreply, ih hlevel]

end

/-- The looks of a session change no other answer, whatever the session asks for and also behind faults, if no symbol
holds a line feed or starts with a quote; and a token that is looked at is the one that would be taken. -/
theorem transcript_without_looks {symbols : SymbolTable} (ht : symbols.InLine) (source : String) (steps : List Step) :
    ((ofSource source symbols).transcript steps).filter (fun entry => !entry.1.looks) =
        (ofSource source symbols).transcript (steps.filter fun step => !step.looks) ∧
      ∀ l : Lexer, (Lexer.peekToken?.run l).1 = (Lexer.nextToken?.run l).1 := by
  have hstart := tracking_ofSource source symbols
  exact ⟨(Level.of_rest hstart hstart rfl).transcript ht steps, fst_peekToken?⟩

/-- A string with a line feed is looked at before it is taken, and one that breaks off before it faults. -/
theorem transcript_without_looks_strings :
    SymbolTable.builtIn.InLine ∧
      ((ofSource "'\\\n' 'é" .builtIn).transcript [.request .peekToken, .request .nextToken, .request .foundText,
        .locate 5, .request .advance, .request .nextToken]).filter (fun entry => !entry.1.looks) =
          (ofSource "'\\\n' 'é" .builtIn).transcript [.request .nextToken, .locate 5, .request .nextToken] ∧
      ((ofSource "'\\\n' 'é" .builtIn).transcript [.request .nextToken, .locate 5, .request .nextToken]).map Prod.snd =
        [.ok (.token (some (.string "'\\\n'", ⟨0, 4⟩, none))), .ok (.location ⟨2, 3⟩),
          .error ⟨.unterminatedString, ⟨5, 8⟩, ⟨2, 5⟩⟩] := by
  have hin : SymbolTable.builtIn.InLine := EngineBuilder.Configured.start.inLine (σ := Unit) rfl
  exact ⟨hin, (transcript_without_looks hin "'\\\n' 'é" _).1, by decide +kernel⟩

end Lexer

end LatentExpr
