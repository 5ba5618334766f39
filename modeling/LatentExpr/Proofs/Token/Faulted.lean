import LatentExpr.Parser.Error
import LatentExpr.Proofs.Token.Onward

/-!
Where a lexer faults. An error is pointed at a text of the source if its span covers that text, its message
quotes it, and it is located where the text starts, or where it ends if it is a string that is not closed
(`ParseError.Pointed`). Every fault of a lexer that keeps track is, and whatever is refused is refused before the
next token.
-/
namespace LatentExpr

open Lexer Lexeme

/-! ### Errors at their place -/

/-- A span covers a text of a source, so both of its ends are between characters. -/
def Span.Covers (s : Span) (source text : List Char) : Prop :=
  ∃ before after, source = before ++ (text ++ after) ∧ s = ⟨byteCount before, byteCount before + byteCount text⟩

/-- What a fault quotes of the text that it is about: the text, the beginning of it, or nothing. A target of an
assignment is quoted as it is printed. -/
def ParseFault.Quotes (fault : ParseFault) (text : List Char) : Prop :=
  match fault with
  | .invalidAssignmentTarget _ => True
  | .trailingInput _ => fault.found = String.ofList (text.take 20)
  | .lexical .unterminatedString | .lexical .unterminatedComment => fault.found = ""
  | _ => fault.found = String.ofList text

/-- The offset at which an error is located. -/
def ParseError.place (e : ParseError) : Nat :=
  if e.fault = .lexical .unterminatedString then e.span.stop else e.span.start

/-- An error points at a text of a source. -/
structure ParseError.Pointed (source : List Char) (e : ParseError) : Prop where
  ordered : e.span.start ≤ e.span.stop
  inside : e.span.stop ≤ byteCount source
  quoted : ∃ text, e.span.Covers source text ∧ e.fault.Quotes text
  located : e.location = .find source e.place

/-- An error about a text of a source that is not too large for its spans. -/
theorem pointed_of_append {source before text after : List Char} {fault : ParseFault} {location : Location}
    (hsize : byteCount source ≤ Span.limit) (hsource : source = before ++ (text ++ after))
    (hquotes : fault.Quotes text)
    (hlocation : location = .find source
      (if fault = .lexical .unterminatedString then byteCount before + byteCount text else byteCount before)) :
    ParseError.Pointed source ⟨fault, .between (byteCount before) (byteCount before + byteCount text), location⟩ := by
  have hfits : byteCount before + byteCount text ≤ byteCount source := by
    rw [hsource, byteCount_append, byteCount_append]
    omega
  have hspan : Span.between (byteCount before) (byteCount before + byteCount text) =
      ⟨byteCount before, byteCount before + byteCount text⟩ := by
    rw [Span.between, Nat.min_eq_left (by omega), Nat.min_eq_left (by omega)]
  rw [hspan]
  exact ⟨Nat.le_add_right _ _, hfits, ⟨text, ⟨before, after, hsource, rfl⟩, hquotes⟩, hlocation⟩

/-- A token stands in a source where its span says. -/
def Token.Placed (source : List Char) (t : Token) : Prop :=
  ∃ before after, source = before ++ (t.text.toList ++ after) ∧
    t.span = .between (byteCount before) (byteCount before + byteCount t.text.toList)

theorem Token.Placed.pointed {source : List Char} {t : Token} {fault : ParseFault}
    (hsize : byteCount source ≤ Span.limit) (h : t.Placed source) (hquotes : fault.Quotes t.text.toList)
    (hstring : fault ≠ .lexical .unterminatedString) :
    ParseError.Pointed source ⟨fault, t.span, .find source t.span.start⟩ := by
  obtain ⟨before, after, hsource, hspan⟩ := h
  have hfits : byteCount before ≤ Span.limit := by
    rw [hsource, byteCount_append] at hsize
    omega
  rw [hspan]
  refine pointed_of_append hsize hsource hquotes ?_
  rw [if_neg hstring, Span.between, Nat.min_eq_left hfits]

namespace Lexing
variable {α β : Type} {x : Lexing α}

/-! ### Requests that cannot fault -/

/-- A request that is always answered. -/
def Sure (x : Lexing α) : Prop := ∀ l, ∃ a l', x l = (.ok a, l')

theorem Sure.pure (a : α) : Sure (Pure.pure a) := fun l => ⟨a, l, rfl⟩

theorem Sure.set (l : Lexer) : Sure (set l) := fun _ => ⟨⟨⟩, l, rfl⟩

theorem Sure.bind {f : α → Lexing β} (hx : Sure x) (hf : ∀ a, Sure (f a)) : Sure (x >>= f) := by
  intro l
  obtain ⟨a, l', hanswer⟩ := hx l
  rw [bind_apply, hanswer]
  exact hf a l'

theorem Sure.get_bind {f : Lexer → Lexing β} (hf : ∀ l, Sure (f l)) : Sure (get >>= f) := fun l => hf l l

theorem Sure.map (hx : Sure x) (f : α → β) : Sure (f <$> x) := by
  rw [map_eq_pure_bind]
  exact hx.bind fun a => .pure (f a)

theorem Sure.not_error (hx : Sure x) {l l' : Lexer} {e : LexicalError} : x l ≠ (.error e, l') := by
  intro h
  obtain ⟨a, l'', hanswer⟩ := hx l
  rw [h] at hanswer
  cases hanswer

theorem sure_take (kind : TokenKind) (text rest : List Char) : Sure (take kind text rest) :=
  .get_bind fun l => by cases kind <;> exact (Sure.set _).bind fun _ => .pure _

end Lexing

namespace Lexer
variable {symbols : SymbolTable} {source read text rest : List Char} {l l' : Lexer} {e : LexicalError}

open Lexing

/-! ### Faults -/

/-- Nothing but a comment that is not closed keeps blanks and comments from being skipped. -/
theorem skip_fault (h : skip l = (.error e, l')) :
    e = l'.fault .unterminatedComment l'.position (byteCount l'.source) l'.position := by
  fun_induction skip l with
  | case1 | case6 => cases h
  | case2 _ _ _ _ _ ih | case4 _ _ _ _ _ _ _ _ _ ih | case5 _ _ _ _ _ _ _ ih => exact ih h
  | case3 =>
    obtain ⟨he, rfl⟩ := Prod.mk.inj h
    exact (Except.error.inj he).symm

/-- A lexer that keeps track stands before the next token, or it faults at a comment. -/
theorem Tracking.advance_cases (h : Tracking symbols source l) :
    (∃ read l', Ready symbols source read l' ∧ Lexer.advance l = (.ok (), l')) ∨
      ∃ read l', Tracked symbols source read l' ∧ Lexer.advance l =
        (.error (l'.fault .unterminatedComment l'.position (byteCount l'.source) l'.position), l') := by
  obtain ⟨read, h⟩ := h
  have hat : l.At symbols l.rest := ⟨h.split, h.table, rfl⟩
  rw [advance_eq_skip hat]
  rcases h.skip with ⟨read', l', heq, hready⟩ | ⟨e, l', heq, read', htracked⟩
  · exact .inl ⟨read', l', hready, heq⟩
  · rw [skip_fault heq] at heq
    exact .inr ⟨read', l', htracked, heq⟩

section
variable (hsize : byteCount source ≤ Span.limit)
include hsize

/-- An error about the text in front of a lexer. -/
theorem Tracked.pointed (h : Tracked symbols source read l) (hrest : l.rest = text ++ rest) {fault : ParseFault}
    (hquotes : fault.Quotes text) {location : Location}
    (hlocation : location = .find source
      (if fault = .lexical .unterminatedString then l.position + byteCount text else l.position)) :
    ParseError.Pointed source ⟨fault, .between l.position (l.position + byteCount text), location⟩ := by
  rw [h.position] at hlocation ⊢
  exact pointed_of_append hsize (hrest ▸ h.halves) hquotes hlocation

/-- An error about all that is left. -/
theorem Tracked.pointed_rest (h : Tracked symbols source read l) {fault : ParseFault} (hquotes : fault.Quotes l.rest)
    (hstring : fault ≠ .lexical .unterminatedString) :
    ParseError.Pointed source ⟨fault, .between l.position (byteCount l.source), l.locate l.position⟩ := by
  have hstop : byteCount l.source = l.position + byteCount l.rest := by
    rw [h.text, h.position, ← byteCount_append, ← h.halves]
  rw [hstop]
  refine h.pointed hsize (List.append_nil _).symm hquotes ?_
  rw [if_neg hstring, h.locate]

theorem Tracked.pointed_comment (h : Tracked symbols source read l) :
    (ParseError.ofLexical (l.fault .unterminatedComment l.position (byteCount l.source) l.position)).Pointed source :=
  have hquotes : (ParseFault.lexical .unterminatedComment).Quotes l.rest := rfl
  h.pointed_rest hsize hquotes nofun

/-- A request that first skips faults only in doing so, if what it does then is sure. -/
theorem Tracking.pointed_of_sure {α : Type} (h : Tracking symbols source l) {request : Unit → Lexing α}
    (hfault : (Lexer.advance >>= request) l = (.error e, l')) (hsure : Sure (request ())) :
    (ParseError.ofLexical e).Pointed source := by
  rw [bind_apply] at hfault
  rcases h.advance_cases with ⟨_, l₁, -, hadvance⟩ | ⟨_, l₁, htracked, hadvance⟩
  · rw [hadvance] at hfault
    exact absurd hfault hsure.not_error
  · rw [hadvance] at hfault
    obtain ⟨he, -⟩ := Prod.mk.inj hfault
    exact Except.error.inj he ▸ htracked.pointed_comment hsize

theorem Tracking.pointed_advance (h : Tracking symbols source l) (hfault : Lexer.advance l = (.error e, l')) :
    (ParseError.ofLexical e).Pointed source := by
  rw [← bind_pure Lexer.advance] at hfault
  exact h.pointed_of_sure hsize hfault (.pure ())

theorem Tracking.pointed_peek? (h : Tracking symbols source l) (hfault : Lexer.peek? l = (.error e, l')) :
    (ParseError.ofLexical e).Pointed source := by
  rw [Lexer.peek?] at hfault
  exact h.pointed_of_sure hsize hfault (.get_bind fun _ => .pure _)

theorem Tracking.pointed_hasRemaining (h : Tracking symbols source l)
    (hfault : Lexer.hasRemaining l = (.error e, l')) : (ParseError.ofLexical e).Pointed source := by
  rw [Lexer.hasRemaining, Lexer.peekByte?, bind_assoc] at hfault
  exact h.pointed_of_sure hsize hfault ((Sure.get_bind fun _ => .pure _).bind fun _ => .pure _)

theorem Tracking.pointed_consumeByte (h : Tracking symbols source l) {b : UInt8}
    (hfault : Lexer.consumeByte b l = (.error e, l')) : (ParseError.ofLexical e).Pointed source := by
  rw [Lexer.consumeByte] at hfault
  refine h.pointed_of_sure hsize hfault (.get_bind fun l => ?_)
  split
  · exact (Sure.set _).bind fun _ => .pure _
  · exact .pure _

theorem Tracking.pointed_consumeText (h : Tracking symbols source l) {text : String}
    (hfault : Lexer.consumeText text l = (.error e, l')) : (ParseError.ofLexical e).Pointed source := by
  rw [Lexer.consumeText] at hfault
  refine h.pointed_of_sure hsize hfault (.get_bind fun l => ?_)
  split
  · exact (Sure.set _).bind fun _ => .pure _
  · exact .pure _

theorem Tracking.pointed_consumeSymbol? (h : Tracking symbols source l) {group : OperatorGroup}
    (hfault : Lexer.consumeSymbol? group l = (.error e, l')) : (ParseError.ofLexical e).Pointed source := by
  rw [Lexer.consumeSymbol?] at hfault
  refine h.pointed_of_sure hsize hfault (.get_bind fun l => ?_)
  split
  · exact .pure _
  split
  · exact .pure _
  · split
    · exact (Sure.set _).bind fun _ => .pure _
    · exact .pure _

theorem Tracking.pointed_nextIdentifier? (h : Tracking symbols source l)
    (hfault : Lexer.nextIdentifier? l = (.error e, l')) : (ParseError.ofLexical e).Pointed source := by
  rw [Lexer.nextIdentifier?] at hfault
  refine h.pointed_of_sure hsize hfault (.get_bind fun l => ?_)
  cases l.readable with
  | nil => exact .pure _
  | cons c after =>
    dsimp only
    split
    · exact (sure_take _ _ _).map _
    · exact .pure _

omit hsize in
/-- A string that breaks off is about all of it. -/
theorem takeString_fault {quote : Char} {after : List Char} (h : takeString quote after l = (.error e, l')) :
    ∃ tail behind, stringTail quote after = (tail, behind, .unterminated) ∧
      e = l'.fault .unterminatedString l.position (l.position + byteCount (quote :: tail))
        (l.position + byteCount (quote :: tail)) := by
  rw [takeString] at h
  simp only [bind_apply, get_apply, set_apply] at h
  generalize hscanned : stringTail quote after = scanned at h
  obtain ⟨tail, behind, ending⟩ := scanned
  cases ending with
  | closed => exact absurd h (sure_take _ _ _).not_error
  | unterminated =>
    obtain ⟨he, rfl⟩ := Prod.mk.inj h
    exact ⟨tail, behind, rfl, (Except.error.inj he).symm⟩

variable (ht : symbols.InLine)
include ht

theorem Ready.pointed_nextToken? (h : Ready symbols source read l) (hfault : Lexer.nextToken? l = (.error e, l')) :
    (ParseError.ofLexical e).Pointed source := by
  have htracking := (h.nextToken? ht).1
  rw [hfault] at htracking
  obtain ⟨_, htracked⟩ := htracking
  rw [Lexer.nextToken?, h.advance_bind] at hfault
  simp only [bind_apply, get_apply, h.readable] at hfault
  cases hrest : l.rest with
  | nil =>
    rw [hrest] at hfault
    cases hfault
  | cons c after =>
    rw [hrest] at hfault
    dsimp only at hfault
    have htaken {kind : TokenKind} {text rest : List Char} :
        (some <$> take kind text rest) l ≠ (.error e, l') := ((sure_take _ _ _).map _).not_error
    split at hfault
    · exact absurd hfault htaken
    split at hfault
    · exact absurd hfault htaken
    split at hfault
    · exact absurd hfault htaken
    split at hfault
    · -- a string: the lexer has noted its line feeds, and the fault is located behind it
      rw [map_apply] at hfault
      split at hfault
      · cases hfault
      · rename_i hstring
        obtain ⟨he, rfl⟩ := Prod.mk.inj hfault
        obtain rfl := Except.error.inj he
        obtain ⟨tail, behind, hscanned, rfl⟩ := takeString_fault hstring
        have happend := stringTail_append c after
        rw [hscanned] at happend
        have hwhole : l.rest = (c :: tail) ++ behind := by rw [hrest, List.cons_append, happend]
        have hquotes : (ParseFault.lexical .unterminatedString).Quotes (c :: tail) := rfl
        exact h.pointed hsize hwhole hquotes (htracked.locate _)
    · rw [map_apply] at hfault
      split at hfault
      · cases hfault
      · rename_i hsymbol
        obtain ⟨he, rfl⟩ := Prod.mk.inj hfault
        obtain rfl := Except.error.inj he
        rw [takeSymbol] at hsymbol
        simp only [bind_apply, get_apply] at hsymbol
        cases hlong : l.symbols.all.longestIn? l.rest with
        | some symbol =>
          rw [hlong] at hsymbol
          exact absurd hsymbol (sure_take _ _ _).not_error
        | none =>
          rw [hlong] at hsymbol
          obtain ⟨he, -⟩ := Prod.mk.inj hsymbol
          obtain rfl := Except.error.inj he
          have hwhole : l.rest = [c] ++ after := hrest
          have hquotes : (ParseFault.lexical (.unexpectedCharacter c)).Quotes [c] := rfl
          exact h.pointed hsize hwhole hquotes (h.locate _)

theorem Tracking.pointed_nextToken? (h : Tracking symbols source l) (hfault : Lexer.nextToken? l = (.error e, l')) :
    (ParseError.ofLexical e).Pointed source := by
  rcases h.advance_cases with ⟨read, l₁, hready, hadvance⟩ | ⟨_, l₁, htracked, hadvance⟩
  · have hsame : Lexer.nextToken? l = Lexer.nextToken? l₁ := by
      rw [Lexer.nextToken?, bind_apply, hadvance, hready.advance_bind]
    exact hready.pointed_nextToken? hsize ht (hsame ▸ hfault)
  · rw [Lexer.nextToken?, bind_apply, hadvance] at hfault
    obtain ⟨he, -⟩ := Prod.mk.inj hfault
    exact Except.error.inj he ▸ htracked.pointed_comment hsize

end

/-! ### What comes next -/

theorem Ready.at (h : Ready symbols source read l) : l.At symbols l.rest := ⟨h.split, h.table, rfl⟩

theorem Ready.skipText (h : Ready symbols source read l) : skipText l.rest = some l.rest := by
  rcases h.at.skip with ⟨start, l₁, hs, hskip, hat⟩ | ⟨e, l₁, -, hskip⟩
  · rw [h.skipped] at hskip
    obtain ⟨-, rfl⟩ := Prod.mk.inj hskip
    rw [hs, hat.rest]
  · rw [h.skipped] at hskip
    cases hskip

/-- A request that is answered was answered before the next token. -/
theorem Tracking.ready_of_ok {α : Type} (h : Tracking symbols source l) {request : Unit → Lexing α} {a : α}
    (hok : (Lexer.advance >>= request) l = (.ok a, l')) :
    ∃ read l₁, Ready symbols source read l₁ ∧ request () l₁ = (.ok a, l') := by
  rw [bind_apply] at hok
  rcases h.advance_cases with ⟨read, l₁, hready, hadvance⟩ | ⟨_, l₁, -, hadvance⟩
  · rw [hadvance] at hok
    exact ⟨read, l₁, hready, hok⟩
  · rw [hadvance] at hok
    cases hok

/-- A byte is refused before the next token. -/
theorem Tracking.ready_of_consumeByte (h : Tracking symbols source l) {b : UInt8}
    (hno : Lexer.consumeByte b l = (.ok false, l')) : ∃ read, Ready symbols source read l' := by
  rw [Lexer.consumeByte] at hno
  obtain ⟨read, l₁, hready, hno⟩ := h.ready_of_ok hno
  simp only [bind_apply, get_apply] at hno
  split at hno
  · cases hno
  · obtain ⟨-, rfl⟩ := Prod.mk.inj hno
    exact ⟨read, hready⟩

theorem Ready.placed_take (h : Ready symbols source read l) {kind : TokenKind} {token : Token}
    (hrest : l.rest = text ++ rest) (hok : Lexer.take kind text rest l = (.ok token, l')) :
    token.Placed source := by
  have hbehind : l.Behind symbols read (text ++ rest) := ⟨⟨h.split, h.table, hrest⟩, h.position⟩
  obtain ⟨t, l₁, htake, hpiece, hspan, -⟩ := hbehind.take kind
  rw [htake] at hok
  obtain ⟨ht, -⟩ := Prod.mk.inj hok
  obtain rfl := Except.ok.inj ht
  have htext : t.text.toList = text := by
    rw [show t.text = String.ofList text from congrArg Piece.text hpiece, String.toList_ofList]
  exact ⟨read, rest, by rw [htext, h.halves, hrest], by rw [htext]; exact hspan⟩

/-- A name is refused before the next token, and one that is taken stands there. -/
theorem Tracking.nextIdentifier?_cases (h : Tracking symbols source l) {answer : Option Token}
    (hok : Lexer.nextIdentifier? l = (.ok answer, l')) :
    (answer = none ∧ ∃ read, Ready symbols source read l') ∨ ∃ token, answer = some token ∧ token.Placed source := by
  rw [Lexer.nextIdentifier?] at hok
  obtain ⟨read, l₁, hready, hok⟩ := h.ready_of_ok hok
  simp only [bind_apply, get_apply, hready.readable] at hok
  cases hrest : l₁.rest with
  | nil =>
    rw [hrest] at hok
    obtain ⟨ha, rfl⟩ := Prod.mk.inj hok
    exact .inl ⟨(Except.ok.inj ha).symm, read, hready⟩
  | cons c after =>
    rw [hrest] at hok
    dsimp only at hok
    split at hok
    · rw [map_apply] at hok
      split at hok
      · rename_i token l₂ htake
        obtain ⟨ha, -⟩ := Prod.mk.inj hok
        exact .inr ⟨token, (Except.ok.inj ha).symm,
          hready.placed_take (hrest.trans (identifier_append _).symm) htake⟩
      · cases hok
    · obtain ⟨ha, rfl⟩ := Prod.mk.inj hok
      exact .inl ⟨(Except.ok.inj ha).symm, read, hready⟩

variable (ht : symbols.InLine)
include ht

/-- The end is found before the next token, and a token that is taken stands there. -/
theorem Tracking.nextToken?_cases (h : Tracking symbols source l) {answer : Option Token}
    (hok : Lexer.nextToken? l = (.ok answer, l')) :
    (answer = none ∧ ∃ read, Ready symbols source read l') ∨ ∃ token, answer = some token ∧ token.Placed source := by
  obtain ⟨definitions, rfl⟩ := ht.compiled
  cases answer with
  | some token =>
    obtain ⟨read, h⟩ := h
    have hbehind : l.Behind _ read l.rest := ⟨⟨h.split, h.table, rfl⟩, h.position⟩
    obtain ⟨gap, after, -, -, -, hbetween⟩ := hbehind.nextToken?_some hok
    exact .inr ⟨token, rfl, read ++ gap, after, h.halves.trans hbetween.source, hbetween.span⟩
  | none =>
    rw [Lexer.nextToken?] at hok
    obtain ⟨read, l₁, hready, hok⟩ := h.ready_of_ok hok
    have hnext : Lexer.nextToken? l₁ = (.ok none, l') := by
      rw [Lexer.nextToken?, hready.advance_bind, hok]
    rcases hready.at.nextToken? hready.skipText with ⟨l₂, hnil, hend, -⟩ | ⟨_, _, _, _, -, -, hsome, -⟩ |
      ⟨_, _, -, -, hfault⟩
    · simp only [bind_apply, get_apply, hready.readable, hnil] at hok
      obtain ⟨-, rfl⟩ := Prod.mk.inj hok
      exact .inl ⟨rfl, read, hready⟩
    · rw [hsome] at hnext
      cases hnext
    · rw [hfault] at hnext
      cases hnext

/-- The text that is found is the beginning of what is left. -/
theorem Ready.foundText_prefix (h : Ready symbols source read l) : (Lexer.foundText l).1.toList <+: l.rest := by
  have htracking := (h.nextToken? ht).1
  obtain ⟨definitions, rfl⟩ := ht.compiled
  cases hnext : Lexer.nextToken? l with
  | mk answer l₁ =>
    rw [hnext] at htracking
    obtain ⟨read₁, htracked⟩ := htracking
    have hpeek : Lexer.peekToken?.run l = (answer, { l₁ with rest := l.rest, position := l.position }) := by
      show Lexer.peekToken? l = _
      rw [Lexer.peekToken?, h.advance_bind]
      simp only [bind_apply, get_apply, set_apply]
      rw [show Lexer.nextToken?.run l = _ from hnext]
      rfl
    rw [Lexer.foundText, hpeek]
    rcases answer with e | _ | token
    · -- no token can be read: the next character is found, which is still there
      have hreadable : { l₁ with rest := l.rest, position := l.position }.readable = l.rest := by
        rw [readable, htracked.split]
        rfl
      dsimp only
      rw [hreadable, String.toList_ofList]
      exact List.take_prefix 1 l.rest
    · exact List.nil_prefix
    · rcases h.at.nextToken? h.skipText with ⟨_, -, hend, -⟩ | ⟨p, rest, t, _, hl, hpiece, hsome, -⟩ |
        ⟨_, _, -, -, hfault⟩
      · rw [hend] at hnext
        cases hnext
      · rw [hsome] at hnext
        cases hnext
        obtain ⟨happend, -⟩ := lexeme?_append hl
        rw [← hpiece] at happend
        exact ⟨rest, happend⟩
      · rw [hfault] at hnext
        cases hnext

end Lexer

end LatentExpr
