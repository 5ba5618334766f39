import LatentExpr.Proofs.Grammar.Derives
import LatentExpr.Proofs.Token.Requests
import Mathlib

/-!
The requests of the parser over tokens. `Ahead` says which tokens a lexer has before it. A request that
answered has taken some of them (`Takes`), and a request is answered as the next token says.
-/
namespace LatentExpr

open Lexeme

/-! ### Steps of reading in sequence -/

namespace Parsing

variable {α β : Type} {l l' l'' : Lexer}

theorem bind_apply (x : Parsing α) (f : α → Parsing β) (l : Lexer) :
    (x >>= f) l =
      match x l with
      | .ok (a, l') => f a l'
      | .error e => .error e := by
  show Except.bind (x l) (fun p => f p.1 p.2) = _
  cases x l <;> rfl

theorem bind_of_ok {x : Parsing α} {f : α → Parsing β} {a : α} (h : x l = .ok (a, l')) :
    (x >>= f) l = f a l' := by
  rw [bind_apply, h]

theorem bind_eq_ok {x : Parsing α} {f : α → Parsing β} {b : β} :
    (x >>= f) l = .ok (b, l'') ↔ ∃ a l', x l = .ok (a, l') ∧ f a l' = .ok (b, l'') := by
  rw [bind_apply]
  cases h : x l with
  | error e => simp
  | ok p =>
    obtain ⟨a, l'⟩ := p
    constructor
    · exact fun h => ⟨a, l', rfl, h⟩
    · rintro ⟨_, _, ⟨⟩, h⟩
      exact h

theorem get_apply (l : Lexer) : (get : Parsing Lexer) l = .ok (l, l) := rfl

theorem ask_eq_ok {request : Lexing α} {a : α} :
    ask request l = .ok (a, l') ↔ request l = (.ok a, l') := by
  have hrun : request.run l = request l := rfl
  rw [ask, hrun]
  rcases request l with ⟨answer, after⟩
  cases answer with
  | error e => exact ⟨nofun, fun h => nomatch congrArg Prod.fst h⟩
  | ok a' =>
    constructor
    · rintro ⟨⟩
      rfl
    · intro h
      cases h
      rfl

/-- A member name that is taken is an identifier and no keyword. -/
theorem memberName_eq_ok {name : String} (h : memberName l = .ok (name, l')) :
    isKeyword name = false ∧
      ∃ token, Lexer.nextIdentifier? l = (.ok (some token), l') ∧ token.text = name := by
  obtain ⟨answer, l₁, hask, hname⟩ := bind_eq_ok.1 h
  have hask := ask_eq_ok.1 hask
  cases answer with
  | none => cases hname
  | some token =>
    dsimp only at hname
    split at hname
    · cases hname
    · rename_i hkeyword
      cases hname
      exact ⟨Bool.eq_false_iff.2 hkeyword, token, hask, rfl⟩

end Parsing

/-! ### The next token and the longest symbol -/

namespace Lexeme

variable {text start rest : List Char} {s : String} {p : Piece}

/-- Nothing but a symbol begins as a built-in symbol does, a point before a digit apart. -/
theorem first_of_symbol (hs : s ∈ SymbolTable.builtIn.all.symbols) (hdot : s ≠ ".") :
    ∃ c more, s.toList = c :: more ∧ beginsSymbol c = true ∧ c ≠ '.' := by
  have hall : ∀ s ∈ SymbolTable.builtIn.all.symbols, s ≠ "." →
      s.toList.head?.any (fun c => beginsSymbol c = true ∧ c ≠ '.') = true := by
    rw [SymbolTable.symbols_builtIn]
    decide
  have h := hall s hs hdot
  cases hlist : s.toList with
  | nil => simp [hlist] at h
  | cons c more =>
    rw [hlist] at h
    exact ⟨c, more, rfl, by simpa using h⟩

theorem lexeme?_of_symbol? (h : symbol? start = some s) (hdot : s ≠ ".") :
    lexeme? SymbolTable.builtIn.all start = some (.symbol s, start.drop s.length) := by
  obtain ⟨hmem, rest, rfl⟩ := of_symbol? h
  obtain ⟨c, more, hlist, hc, hpoint⟩ := first_of_symbol hmem hdot
  rw [symbol?] at h
  rw [hlist, List.cons_append] at h ⊢
  rw [lexeme?_of_beginsSymbol hc fun heq => absurd heq hpoint, h, Option.map_some]

theorem symbol?_of_lexeme? (h : lexeme? SymbolTable.builtIn.all start = some (.symbol s, rest)) :
    symbol? start = some s ∧ rest = start.drop s.length := longestIn?_of_lexeme? h

/-- A punctuation character is the longest symbol wherever it comes first. -/
theorem symbol?_punctuation_iff {c : Char} (hc : c ∈ punctuation) :
    symbol? start = some c.toString ↔ start.head? = some c := by
  have honly : ∀ c ∈ punctuation, ∀ s ∈ SymbolTable.builtIn.all.symbols,
      s.toList.head? = some c → s = c.toString := by
    rw [SymbolTable.symbols_builtIn]
    exact forall_mem_of_all (by decide)
  constructor
  · intro h
    obtain ⟨-, rest, rfl⟩ := of_symbol? h
    simp
  · intro h
    have hpre : c.toString.toList <+: start := by
      cases start with
      | nil => cases h
      | cons d after =>
        obtain rfl := Option.some.inj h
        exact ⟨after, by simp⟩
    obtain ⟨longest, heq, hmem, -, hle⟩ := symbol?_of_prefix (SymbolTable.toString_mem hc) hpre
    have hhead : longest.toList.head? = some c := by
      obtain ⟨rest, hrest⟩ := hle
      rw [← hrest]
      simp
    rw [heq, honly c hc longest hmem hhead]

theorem isDigit_of_isIdentStart {c : Char} (hc : Text.isIdentStart c = true) : c.isDigit = false := by
  rw [Bool.eq_false_iff]
  intro hd
  simp only [Text.isIdentStart, Char.isAlpha, Char.isUpper, Char.isLower, Char.isDigit,
    Bool.or_eq_true, Bool.and_eq_true, decide_eq_true_eq, beq_iff_eq] at hc hd
  rcases hc with ((⟨h, -⟩ | ⟨h, -⟩) | rfl) | rfl
  · exact absurd (UInt32.le_trans h hd.2) (by decide)
  · exact absurd (UInt32.le_trans h hd.2) (by decide)
  · exact absurd hd.2 (by decide)
  · exact absurd hd.1 (by decide)

theorem isBlank_of_isDigit {c : Char} (hc : c.isDigit = true) : Text.isBlank c = false := by
  simp only [Char.isDigit, Bool.and_eq_true, decide_eq_true_eq, UInt32.le_iff_toNat_le] at hc
  refine isBlank_of_visible (Nat.lt_of_lt_of_le ?_ hc.1) (Nat.lt_of_le_of_lt hc.2 ?_)
  · decide
  · decide

theorem lexeme?_identifier {m : Matcher} {c : Char} {after : List Char}
    (hc : Text.isIdentStart c = true) :
    lexeme? m (c :: after) = some (.identifier (String.ofList (identifier (c :: after)).1),
      (identifier (c :: after)).2) := by
  have hzero : c ≠ '0' := by
    rintro rfl
    revert hc
    decide
  have hpoint : c ≠ '.' := by
    rintro rfl
    revert hc
    decide
  simp [lexeme?, hzero, hpoint, isDigit_of_isIdentStart hc, hc]

/-- A point that no digit follows is a token. -/
theorem lexeme?_point_of_no_digit (hdigit : rest.head?.any Char.isDigit = false)
    (hsymbol : symbol? ('.' :: rest) = some ".") :
    lexeme? SymbolTable.builtIn.all ('.' :: rest) = some (.punct '.', rest) := by
  rw [symbol?] at hsymbol
  rw [lexeme?_of_beginsSymbol (by decide) fun _ => hdigit, hsymbol]
  rfl

/-- No digit comes first where a name comes next. -/
theorem no_digit_of_skipText {c : Char} {after : List Char} (hs : skipText rest = some (c :: after))
    (hc : Text.isIdentStart c = true) : rest.head?.any Char.isDigit = false := by
  cases rest with
  | nil => rfl
  | cons d more =>
    by_cases hd : d.isDigit = true
    · have hslash : d ≠ '/' := by
        rintro rfl
        revert hd
        decide
      rw [skipText_cons hslash (isBlank_of_isDigit hd)] at hs
      obtain ⟨rfl, -⟩ := List.cons.inj (Option.some.inj hs)
      rw [isDigit_of_isIdentStart hc] at hd
      cases hd
    · simpa using hd

theorem lexeme?_point {c : Char} {after : List Char} (hs : skipText rest = some (c :: after))
    (hc : Text.isIdentStart c = true) (hsymbol : symbol? ('.' :: rest) = some ".") :
    lexeme? SymbolTable.builtIn.all ('.' :: rest) = some (.punct '.', rest) :=
  lexeme?_point_of_no_digit (no_digit_of_skipText hs hc) hsymbol

end Lexeme

namespace Lexer

/-- The lexer has the built-in symbols and is inside no character. -/
def Standing (l : Lexer) : Prop := l.At .builtIn l.rest

/-- The tokens before the lexer, up to the end of the source. -/
def Ahead (l : Lexer) (ps : List Piece) : Prop :=
  ∃ text, l.At .builtIn text ∧ Reads SymbolTable.builtIn.all text ps

/-- From the first lexer to the second, some tokens were taken. -/
structure Takes (l l' : Lexer) (taken : List Piece) : Prop where
  standing : l'.Standing
  ahead : ∀ ps, l'.Ahead ps → l.Ahead (taken ++ ps)

variable {l l' l'' : Lexer} {text start rest : List Char} {p : Piece} {ps taken taken' : List Piece}

theorem At.standing (h : l.At .builtIn text) : l.Standing := by
  obtain rfl := h.rest
  exact h

theorem At.ahead_iff (h : l.At .builtIn text) :
    l.Ahead ps ↔ Reads SymbolTable.builtIn.all text ps := by
  constructor
  · rintro ⟨text', h', hr⟩
    rwa [← h.rest, h'.rest]
  · exact fun hr => ⟨text, h, hr⟩

theorem Takes.trans (h : Takes l l' taken) (h' : Takes l' l'' taken') :
    Takes l l'' (taken ++ taken') := by
  refine ⟨h'.standing, fun ps hps => ?_⟩
  rw [List.append_assoc]
  exact h.ahead _ (h'.ahead ps hps)

/-- Standing behind the blanks, a lexer has the same tokens before it. -/
theorem At.takes_nothing (h : l.At .builtIn text) (hs : skipText text = some start)
    (h' : l'.At .builtIn start) : Takes l l' [] := by
  refine ⟨h'.standing, fun ps hps => ?_⟩
  rw [h.ahead_iff, List.nil_append, ← Reads.of_skip hs]
  exact h'.ahead_iff.1 hps

theorem At.takes_one (h : l.At .builtIn text) (hs : skipText text = some start)
    (hl : lexeme? SymbolTable.builtIn.all start = some (p, rest)) (h' : l'.At .builtIn rest) :
    Takes l l' [p] :=
  ⟨h'.standing, fun _ hps => h.ahead_iff.2 (.next hs hl (h'.ahead_iff.1 hps))⟩

/-- The tokens before a lexer begin behind the blanks. -/
theorem Ahead.skip (h : l.Ahead ps) :
    ∃ text start, l.At .builtIn text ∧ skipText text = some start ∧
      Reads SymbolTable.builtIn.all start ps := by
  obtain ⟨text, hat, hr⟩ := h
  cases hr with
  | done hs => exact ⟨text, [], hat, hs, .done (skipText_of_skipText hs)⟩
  | next hs hl hr => exact ⟨text, _, hat, hs, .next (skipText_of_skipText hs) hl hr⟩

theorem Standing.at (h : l.Standing) : l.At .builtIn l.rest := h

theorem Standing.skip_of_ok {α : Type} {request : Unit → Lexing α} {a : α} (h : l.Standing)
    (hask : (advance >>= request) l = (.ok a, l')) : ∃ start, skipText l.rest = some start :=
  h.at.skip_of_ok hask

end Lexer

/-! ### The symbol that comes next -/

namespace Lexeme

variable {start : List Char} {ps : List Piece} {s : String}

/-- The next token is a symbol exactly where that is the longest symbol, points apart. -/
theorem Reads.head_eq_symbol_iff (hskip : skipText start = some start)
    (h : Reads SymbolTable.builtIn.all start ps) (hdot : s ≠ ".") :
    ps.head? = some (.symbol s) ↔ symbol? start = some s := by
  constructor
  · intro hhead
    cases h with
    | done => cases hhead
    | next hs hl hr =>
      obtain rfl := Option.some.inj (hskip.symm.trans hs)
      obtain rfl := Option.some.inj hhead
      exact (symbol?_of_lexeme? hl).1
  · intro hsymbol
    have hl := lexeme?_of_symbol? hsymbol hdot
    cases h with
    | done hs =>
      obtain rfl := Option.some.inj (hskip.symm.trans hs)
      cases hl
    | next hs hl' hr =>
      obtain rfl := Option.some.inj (hskip.symm.trans hs)
      rw [hl] at hl'
      obtain ⟨rfl, -⟩ := Prod.mk.inj (Option.some.inj hl')
      rfl

/-- Where no number comes next, that holds of points too. -/
theorem Reads.head_eq_point_iff (hskip : skipText start = some start)
    (h : Reads SymbolTable.builtIn.all start ps) (hsym : ∀ p, ps.head? = some p → p.kind = .symbol) :
    ps.head? = some (.symbol s) ↔ symbol? start = some s := by
  cases h with
  | done hs =>
    obtain rfl := Option.some.inj (hskip.symm.trans hs)
    simp [symbol?_nil]
  | @next _ _ _ p _ hs hl hr =>
    obtain rfl := Option.some.inj (hskip.symm.trans hs)
    have hp : p = .symbol p.text := by
      have hkind := hsym p rfl
      cases p
      simp_all [Piece.symbol]
    rw [hp] at hl
    rw [(symbol?_of_lexeme? hl).1, List.head?_cons, hp]
    simp [Piece.symbol]

/-- What is read behind a symbol. -/
theorem Reads.behind_symbol (hskip : skipText start = some start)
    (h : Reads SymbolTable.builtIn.all start (.symbol s :: ps)) :
    Reads SymbolTable.builtIn.all (start.drop s.length) ps := by
  cases h with
  | next hs hl hr =>
    obtain rfl := Option.some.inj (hskip.symm.trans hs)
    obtain ⟨-, rfl⟩ := symbol?_of_lexeme? hl
    exact hr

end Lexeme

/-! ### Requests before known tokens -/

namespace Lexer

variable {l : Lexer} {ps : List Piece} {c : Char} {s : String} {p : Piece}

theorem punct_eq_symbol (c : Char) : Piece.punct c = .symbol c.toString := rfl

theorem toString_ne {d : Char} (h : c ≠ d) : c.toString ≠ d.toString :=
  fun heq => h (List.singleton_injective (by simpa using congrArg String.toList heq))

theorem head?_ne_punct {d : Char} (h : c ≠ d) : (Piece.punct c :: ps).head? ≠ some (.punct d) :=
  fun heq => toString_ne h (congrArg Piece.text (Option.some.inj heq))

/-- A punctuation character that comes next is taken. -/
theorem Ahead.consume (h : l.Ahead (.punct c :: ps)) (hc : c ∈ punctuation) :
    ∃ l', Parsing.consume c l = .ok (true, l') ∧ l'.Ahead ps := by
  obtain ⟨text, start, hat, hs, hr⟩ := h.skip
  have hskip := skipText_of_skipText hs
  have hsymbol : symbol? start = some c.toString := by
    cases hr with
    | next hs' hl _ =>
      obtain rfl := Option.some.inj (hskip.symm.trans hs')
      exact (symbol?_of_lexeme? hl).1
  obtain ⟨l', heq, hat'⟩ := hat.consume hs hc
  rw [if_pos hsymbol] at hat'
  rw [decide_eq_true hsymbol] at heq
  refine ⟨l', Parsing.ask_eq_ok.2 heq, hat'.ahead_iff.2 ?_⟩
  have := Reads.behind_symbol hskip hr
  simpa using this

/-- A punctuation character that does not come next is not taken. -/
theorem Ahead.consume_other (h : l.Ahead ps) (c : Char) (hc : c ∈ punctuation)
    (hne : ps.head? ≠ some (.punct c))
    (hsym : c = '.' → ∀ p, ps.head? = some p → p.kind = .symbol) :
    ∃ l', Parsing.consume c l = .ok (false, l') ∧ l'.Ahead ps := by
  obtain ⟨text, start, hat, hs, hr⟩ := h.skip
  have hskip := skipText_of_skipText hs
  have hsymbol : symbol? start ≠ some c.toString := by
    intro hsymbol
    by_cases hdot : c = '.'
    · exact hne ((Reads.head_eq_point_iff hskip hr (hsym hdot)).2 hsymbol)
    · refine hne ((Reads.head_eq_symbol_iff hskip hr ?_).2 hsymbol)
      exact toString_ne hdot
  obtain ⟨l', heq, hat'⟩ := hat.consume hs hc
  rw [if_neg hsymbol] at hat'
  rw [decide_eq_false hsymbol] at heq
  exact ⟨l', Parsing.ask_eq_ok.2 heq, hat'.ahead_iff.2 hr⟩

theorem Ahead.expect (h : l.Ahead (.punct c :: ps)) (hc : c ∈ punctuation) :
    ∃ l', Parsing.expect c l = .ok ((), l') ∧ l'.Ahead ps := by
  obtain ⟨l', hconsume, hahead⟩ := h.consume hc
  exact ⟨l', by rw [Parsing.expect, Parsing.bind_of_ok hconsume]; rfl, hahead⟩

/-- The point is in no group but punctuation. -/
theorem ne_point_of_mem {g : OperatorGroup} (hg : g ≠ .punctuation) (hs : s ∈ g.builtIn) : s ≠ "." := by
  rintro rfl
  revert hs
  cases g <;> first | exact absurd rfl hg | decide

theorem Ahead.consumeSymbol? (h : l.Ahead (.symbol s :: ps)) (g : OperatorGroup) (hs : s ∈ g.builtIn) :
    ∃ name l', Parsing.ask (Lexer.consumeSymbol? g) l = .ok (some name, l') ∧ name.text = s ∧
      l'.Ahead ps := by
  obtain ⟨text, start, hat, hskip', hr⟩ := h.skip
  have hskip := skipText_of_skipText hskip'
  have hsymbol : symbol? start = some s := by
    cases hr with
    | next hs' hl _ =>
      obtain rfl := Option.some.inj (hskip.symm.trans hs')
      exact (symbol?_of_lexeme? hl).1
  rcases hat.consumeSymbol? hskip' g with ⟨s', name, l', hs', -, hname, heq, hat'⟩ | ⟨l', hnone, -⟩
  · obtain rfl := Option.some.inj (hsymbol.symm.trans hs')
    exact ⟨name, l', Parsing.ask_eq_ok.2 heq, hname,
      hat'.ahead_iff.2 (Reads.behind_symbol hskip hr)⟩
  · exact absurd hs (hnone s hsymbol)

theorem Ahead.consumeSymbol?_other (h : l.Ahead ps) (g : OperatorGroup) (hg : g ≠ .punctuation)
    (hne : ∀ s ∈ g.builtIn, ps.head? ≠ some (.symbol s)) :
    ∃ l', Parsing.ask (Lexer.consumeSymbol? g) l = .ok (none, l') ∧ l'.Ahead ps := by
  obtain ⟨text, start, hat, hskip', hr⟩ := h.skip
  have hskip := skipText_of_skipText hskip'
  rcases hat.consumeSymbol? hskip' g with ⟨s, name, l', hsymbol, hs, -⟩ | ⟨l', -, heq, hat'⟩
  · exact absurd ((Reads.head_eq_symbol_iff hskip hr (ne_point_of_mem hg hs)).2 hsymbol) (hne s hs)
  · exact ⟨l', Parsing.ask_eq_ok.2 heq, hat'.ahead_iff.2 hr⟩

theorem Ahead.nextToken? (h : l.Ahead (p :: ps)) :
    ∃ token l', Parsing.ask Lexer.nextToken? l = .ok (some token, l') ∧ token.piece = p ∧
      l'.Ahead ps := by
  obtain ⟨text, start, hat, hskip', hr⟩ := h.skip
  have hskip := skipText_of_skipText hskip'
  cases hr with
  | next hs' hl hr =>
    obtain rfl := Option.some.inj (hskip.symm.trans hs')
    rcases hat.nextToken? hskip' with ⟨l', rfl, -⟩ | ⟨p', rest', token, l', hl', hp, heq, hat'⟩ |
      ⟨e, l', -, hl', -⟩
    · cases hl
    · rw [hl] at hl'
      obtain ⟨rfl, rfl⟩ := Prod.mk.inj (Option.some.inj hl')
      exact ⟨token, l', Parsing.ask_eq_ok.2 heq, hp, hat'.ahead_iff.2 hr⟩
    · rw [hl] at hl'
      cases hl'

theorem Ahead.peek? (h : l.Ahead ps) :
    ∃ d l', Parsing.peek? l = .ok (d, l') ∧ l'.Ahead ps ∧ (d = none → ps = []) ∧
      ∀ c ∈ punctuation, c ≠ '.' → (d = some c ↔ ps.head? = some (.punct c)) := by
  obtain ⟨text, start, hat, hs, hr⟩ := h.skip
  have hskip := skipText_of_skipText hs
  obtain ⟨l', heq, hat'⟩ := hat.peek? hs
  refine ⟨start.head?, l', Parsing.ask_eq_ok.2 heq, hat'.ahead_iff.2 hr, ?_, fun c hc hdot => ?_⟩
  · intro hnone
    obtain rfl := List.head?_eq_none_iff.1 hnone
    cases hr with
    | done => rfl
    | next hs' hl _ =>
      obtain rfl := Option.some.inj (hskip.symm.trans hs')
      cases hl
  · rw [← symbol?_punctuation_iff hc, punct_eq_symbol,
      Reads.head_eq_symbol_iff hskip hr (toString_ne hdot)]

theorem Ahead.advance (h : l.Ahead ps) :
    ∃ l', Parsing.ask Lexer.advance l = .ok ((), l') ∧ l'.Ahead ps := by
  obtain ⟨text, start, hat, hs, hr⟩ := h.skip
  obtain ⟨l', heq, hat'⟩ := hat.advance hs
  exact ⟨l', Parsing.ask_eq_ok.2 heq, hat'.ahead_iff.2 hr⟩

theorem Ahead.hasRemaining (h : l.Ahead []) :
    ∃ l', Parsing.ask Lexer.hasRemaining l = .ok (false, l') := by
  obtain ⟨text, start, hat, hs, hr⟩ := h.skip
  cases hr with
  | done hs' =>
    obtain rfl := Option.some.inj ((skipText_of_skipText hs).symm.trans hs')
    obtain ⟨l', heq, -⟩ := hat.hasRemaining hs
    exact ⟨l', Parsing.ask_eq_ok.2 heq⟩

theorem Ahead.memberName {name : String} (h : l.Ahead (.identifier name :: ps))
    (hn : isKeyword name = false) :
    ∃ l', Parsing.memberName l = .ok (name, l') ∧ l'.Ahead ps := by
  obtain ⟨text, start, hat, hs, hr⟩ := h.skip
  cases hr with
  | next hs' hl hr =>
    obtain rfl := Option.some.inj ((skipText_of_skipText hs).symm.trans hs')
    obtain ⟨c, after, rfl, hc, hident⟩ := identifier_of_lexeme? hl
    rcases hat.nextIdentifier? hs with ⟨-, -, token, l', -, -, htext, heq, hat'⟩ | ⟨-, hnot, -⟩
    · rw [hident, String.ofList_toList] at htext
      rw [hident] at hat'
      refine ⟨l', ?_, hat'.ahead_iff.2 hr⟩
      rw [Parsing.memberName, Parsing.bind_of_ok (Parsing.ask_eq_ok.2 heq)]
      simp only [htext, hn, Bool.false_eq_true, if_false]
      rfl
    · rw [hnot c after rfl] at hc
      cases hc

theorem Ahead.operator? {level : Level} (h : l.Ahead (.symbol s :: ps)) (hs : s ∈ level.symbols) :
    ∃ l', Parsing.operator? level l = .ok (some (level.join s), l') ∧ l'.Ahead ps := by
  cases level with
  | logical op =>
    obtain rfl := List.mem_singleton.1 hs
    obtain ⟨text, start, hat, hs', hr⟩ := h.skip
    have hskip := skipText_of_skipText hs'
    have hsymbol : symbol? start = some op.symbol := by
      refine (Reads.head_eq_symbol_iff hskip hr ?_).1 rfl
      cases op <;> decide
    obtain ⟨l', heq, hat'⟩ := hat.consumeText hs' op.symbol
    rw [if_pos hsymbol] at hat'
    rw [decide_eq_true hsymbol] at heq
    refine ⟨l', ?_, hat'.ahead_iff.2 (Reads.behind_symbol hskip hr)⟩
    rw [Parsing.operator?, Parsing.bind_of_ok (Parsing.ask_eq_ok.2 heq)]
    rfl
  | binary level =>
    obtain ⟨name, l', heq, rfl, hahead⟩ := h.consumeSymbol? level.group hs
    refine ⟨l', ?_, hahead⟩
    rw [Parsing.operator?, Parsing.bind_of_ok heq]
    rfl

theorem Ahead.operator?_other {level : Level} (h : l.Ahead ps)
    (hne : ∀ s ∈ level.symbols, ps.head? ≠ some (.symbol s)) :
    ∃ l', Parsing.operator? level l = .ok (none, l') ∧ l'.Ahead ps := by
  cases level with
  | logical op =>
    obtain ⟨text, start, hat, hs, hr⟩ := h.skip
    have hskip := skipText_of_skipText hs
    have hsymbol : symbol? start ≠ some op.symbol := by
      intro hsymbol
      refine hne op.symbol (List.mem_singleton_self _)
        ((Reads.head_eq_symbol_iff hskip hr ?_).2 hsymbol)
      cases op <;> decide
    obtain ⟨l', heq, hat'⟩ := hat.consumeText hs op.symbol
    rw [if_neg hsymbol] at hat'
    rw [decide_eq_false hsymbol] at heq
    refine ⟨l', ?_, hat'.ahead_iff.2 hr⟩
    rw [Parsing.operator?, Parsing.bind_of_ok (Parsing.ask_eq_ok.2 heq)]
    rfl
  | binary level =>
    have hg : level.group ≠ .punctuation := by cases level <;> nofun
    obtain ⟨l', heq, hahead⟩ := h.consumeSymbol?_other level.group hg hne
    refine ⟨l', ?_, hahead⟩
    rw [Parsing.operator?, Parsing.bind_of_ok heq]
    rfl

/-! ### What an answered request took -/

variable {l' : Lexer}

theorem Standing.consume (h : l.Standing) (hc : c ∈ punctuation) (hdot : c ≠ '.')
    (hask : Parsing.consume c l = .ok (true, l')) : Takes l l' [.punct c] := by
  have hask := Parsing.ask_eq_ok.1 hask
  obtain ⟨start, hs⟩ := h.skip_of_ok hask
  obtain ⟨l'', heq, hat⟩ := h.at.consume hs hc
  rw [heq] at hask
  by_cases hsymbol : symbol? start = some c.toString
  · rw [if_pos hsymbol] at hat
    obtain ⟨-, rfl⟩ := Prod.mk.inj hask
    exact h.at.takes_one hs (lexeme?_of_symbol? hsymbol (toString_ne hdot)) (by simpa using hat)
  · rw [decide_eq_false hsymbol] at hask
    cases hask

theorem Standing.consume_other (h : l.Standing) (hc : c ∈ punctuation)
    (hask : Parsing.consume c l = .ok (false, l')) :
    Takes l l' [] ∧ ∀ ps, l'.Ahead ps → ps.head? ≠ some (.punct c) := by
  have hask := Parsing.ask_eq_ok.1 hask
  obtain ⟨start, hs⟩ := h.skip_of_ok hask
  obtain ⟨l'', heq, hat⟩ := h.at.consume hs hc
  rw [heq] at hask
  by_cases hsymbol : symbol? start = some c.toString
  · rw [decide_eq_true hsymbol] at hask
    cases hask
  · rw [if_neg hsymbol] at hat
    obtain ⟨-, rfl⟩ := Prod.mk.inj hask
    refine ⟨h.at.takes_nothing hs hat, fun ps hps hhead => ?_⟩
    have hr := hat.ahead_iff.1 hps
    cases hr with
    | done => cases hhead
    | next hs' hl _ =>
      obtain rfl := Option.some.inj ((skipText_of_skipText hs).symm.trans hs')
      obtain rfl := Option.some.inj hhead
      exact hsymbol (symbol?_of_lexeme? hl).1

theorem Standing.expect (h : l.Standing) (hc : c ∈ punctuation) (hdot : c ≠ '.')
    (hask : Parsing.expect c l = .ok ((), l')) : Takes l l' [.punct c] := by
  obtain ⟨b, l'', hconsume, hrest⟩ := Parsing.bind_eq_ok.1 hask
  cases b with
  | false => cases hrest
  | true =>
    cases hrest
    exact h.consume hc hdot hconsume

theorem Standing.consumeSymbol? (h : l.Standing) {g : OperatorGroup} (hg : g ≠ .punctuation)
    {name : Name} (hask : Parsing.ask (Lexer.consumeSymbol? g) l = .ok (some name, l')) :
    name.text ∈ g.builtIn ∧ Takes l l' [.symbol name.text] := by
  have hask := Parsing.ask_eq_ok.1 hask
  obtain ⟨start, hs⟩ := h.skip_of_ok hask
  rcases h.at.consumeSymbol? hs g with ⟨s, name', l'', hsymbol, hin, rfl, heq, hat⟩ | ⟨l'', -, heq, -⟩
  · rw [heq] at hask
    cases hask
    exact ⟨hin, h.at.takes_one hs (lexeme?_of_symbol? hsymbol (ne_point_of_mem hg hin)) hat⟩
  · rw [heq] at hask
    cases hask

theorem Standing.consumeSymbol?_other (h : l.Standing) {g : OperatorGroup}
    (hask : Parsing.ask (Lexer.consumeSymbol? g) l = .ok (none, l')) : Takes l l' [] := by
  have hask := Parsing.ask_eq_ok.1 hask
  obtain ⟨start, hs⟩ := h.skip_of_ok hask
  rcases h.at.consumeSymbol? hs g with ⟨s, name', l'', -, -, -, heq, -⟩ | ⟨l'', -, heq, hat⟩
  · rw [heq] at hask
    cases hask
  · rw [heq] at hask
    cases hask
    exact h.at.takes_nothing hs hat

/-- A logical operator is a token of its own, and nothing is taken where it does not come next. -/
theorem Standing.consumeText (h : l.Standing) (op : LogicalOp) {taken : Bool}
    (hask : Parsing.ask (Lexer.consumeText op.symbol) l = .ok (taken, l')) :
    Takes l l' (if taken then [.symbol op.symbol] else []) := by
  have hask := Parsing.ask_eq_ok.1 hask
  obtain ⟨start, hs⟩ := h.skip_of_ok hask
  obtain ⟨l'', heq, hat⟩ := h.at.consumeText hs op.symbol
  rw [heq] at hask
  obtain ⟨htaken, rfl⟩ := Prod.mk.inj hask
  obtain rfl := Except.ok.inj htaken
  by_cases hsymbol : symbol? start = some op.symbol
  · rw [if_pos hsymbol] at hat
    rw [if_pos (decide_eq_true hsymbol)]
    have hpoint : op.symbol ≠ "." := by cases op <;> decide
    exact h.at.takes_one hs (lexeme?_of_symbol? hsymbol hpoint) hat
  · rw [if_neg hsymbol] at hat
    rw [decide_eq_false hsymbol]
    exact h.at.takes_nothing hs hat

theorem Standing.operator? (h : l.Standing) {level : Level} {join : Expr → Expr → Expr}
    (hask : Parsing.operator? level l = .ok (some join, l')) :
    ∃ s ∈ level.symbols, join = level.join s ∧ Takes l l' [.symbol s] := by
  cases level with
  | logical op =>
    obtain ⟨taken, l'', hconsume, hrest⟩ := Parsing.bind_eq_ok.1 hask
    have htakes := h.consumeText op hconsume
    cases taken with
    | false => cases hrest
    | true =>
      cases hrest
      exact ⟨op.symbol, List.mem_singleton_self _, rfl, htakes⟩
  | binary level =>
    obtain ⟨name, l'', hconsume, hrest⟩ := Parsing.bind_eq_ok.1 hask
    cases name with
    | none => cases hrest
    | some name =>
      cases hrest
      have hg : level.group ≠ .punctuation := by cases level <;> nofun
      obtain ⟨hin, htakes⟩ := h.consumeSymbol? hg hconsume
      exact ⟨name.text, hin, rfl, htakes⟩

theorem Standing.operator?_other (h : l.Standing) {level : Level}
    (hask : Parsing.operator? level l = .ok (none, l')) : Takes l l' [] := by
  cases level with
  | logical op =>
    obtain ⟨taken, l'', hconsume, hrest⟩ := Parsing.bind_eq_ok.1 hask
    have htakes := h.consumeText op hconsume
    cases taken with
    | true => cases hrest
    | false =>
      cases hrest
      exact htakes
  | binary level =>
    obtain ⟨name, l'', hconsume, hrest⟩ := Parsing.bind_eq_ok.1 hask
    cases name with
    | some name => cases hrest
    | none =>
      cases hrest
      exact h.consumeSymbol?_other hconsume

theorem Standing.nextToken? (h : l.Standing) {token : Token}
    (hask : Parsing.ask Lexer.nextToken? l = .ok (some token, l')) : Takes l l' [token.piece] := by
  have hask := Parsing.ask_eq_ok.1 hask
  obtain ⟨start, hs⟩ := h.skip_of_ok hask
  rcases h.at.nextToken? hs with ⟨l'', -, heq, -⟩ | ⟨p, rest, token', l'', hl, rfl, heq, hat⟩ |
    ⟨e, l'', -, -, heq⟩
  · rw [heq] at hask
    cases hask
  · rw [heq] at hask
    cases hask
    exact h.at.takes_one hs hl hat
  · rw [heq] at hask
    cases hask

/-- A request to look ahead is answered by the next character and can be made again. -/
theorem Standing.peek? (h : l.Standing) {d : Option Char}
    (hask : Parsing.peek? l = .ok (d, l')) :
    Takes l l' [] ∧ ∀ d' l'', Parsing.peek? l' = .ok (d', l'') → d' = d := by
  have hask := Parsing.ask_eq_ok.1 hask
  obtain ⟨start, hs⟩ := h.skip_of_ok hask
  obtain ⟨l₁, heq, hat⟩ := h.at.peek? hs
  rw [heq] at hask
  cases hask
  refine ⟨h.at.takes_nothing hs hat, fun d' l'' hagain => ?_⟩
  obtain ⟨l₂, heq', -⟩ := hat.peek? (skipText_of_skipText hs)
  have hagain := Parsing.ask_eq_ok.1 hagain
  rw [heq'] at hagain
  cases hagain
  rfl

/-- A comma that was seen is taken. -/
theorem Standing.consume_of_peek? (h : l.Standing) (hc : c ∈ punctuation) {b : Bool} {l'' : Lexer}
    (hpeek : Parsing.peek? l = .ok (some c, l')) (hask : Parsing.consume c l' = .ok (b, l'')) :
    b = true := by
  have hpeek := Parsing.ask_eq_ok.1 hpeek
  obtain ⟨start, hs⟩ := h.skip_of_ok hpeek
  obtain ⟨l₁, heq, hat⟩ := h.at.peek? hs
  rw [heq] at hpeek
  obtain ⟨hstart, rfl⟩ := Prod.mk.inj hpeek
  have hhead : start.head? = some c := Except.ok.inj hstart
  obtain ⟨l₂, heq', -⟩ := hat.consume (skipText_of_skipText hs) hc
  have hask := Parsing.ask_eq_ok.1 hask
  rw [heq', decide_eq_true ((symbol?_punctuation_iff hc).2 hhead)] at hask
  cases hask
  rfl

theorem Standing.advance (h : l.Standing) (hask : Parsing.ask Lexer.advance l = .ok ((), l')) :
    Takes l l' [] := by
  have hask := Parsing.ask_eq_ok.1 hask
  have hbind : (Lexer.advance >>= pure) l = (.ok (), l') := by rw [bind_pure, hask]
  obtain ⟨start, hs⟩ := h.skip_of_ok hbind
  obtain ⟨l'', heq, hat⟩ := h.at.advance hs
  rw [heq] at hask
  cases hask
  exact h.at.takes_nothing hs hat

theorem Standing.hasRemaining (h : l.Standing)
    (hask : Parsing.ask Lexer.hasRemaining l = .ok (false, l')) : l.Ahead [] := by
  have hask := Parsing.ask_eq_ok.1 hask
  cases hs : skipText l.rest with
  | none =>
    rw [Lexer.hasRemaining, Lexer.peekByte?, bind_assoc] at hask
    obtain ⟨start, hs'⟩ := h.skip_of_ok hask
    rw [hs] at hs'
    cases hs'
  | some start =>
    obtain ⟨l'', heq, hat⟩ := h.at.hasRemaining hs
    rw [heq] at hask
    cases start with
    | nil => exact h.at.ahead_iff.2 (.done hs)
    | cons c after => cases hask

/-- A point and a name, which the parser takes one by one. The point is a token of its own, since a name
follows it. -/
theorem Standing.memberName (h : l.Standing) {l'' : Lexer} {name : String}
    (hdot : Parsing.consume '.' l = .ok (true, l'))
    (hname : Parsing.memberName l' = .ok (name, l'')) :
    isKeyword name = false ∧ Takes l l'' [.punct '.', .identifier name] := by
  have hpunct : '.' ∈ punctuation := by decide
  have hdot := Parsing.ask_eq_ok.1 hdot
  obtain ⟨start, hs⟩ := h.skip_of_ok hdot
  obtain ⟨l₁, heq, hat⟩ := h.at.consume hs hpunct
  rw [heq] at hdot
  obtain ⟨hsymbol, rfl⟩ := Prod.mk.inj hdot
  have hsymbol : symbol? start = some '.'.toString := of_decide_eq_true (Except.ok.inj hsymbol)
  rw [if_pos hsymbol] at hat
  obtain ⟨-, rest, rfl⟩ := of_symbol? hsymbol
  obtain ⟨hkey, token, hask, rfl⟩ := Parsing.memberName_eq_ok hname
  obtain ⟨start', hs'⟩ := hat.skip_of_ok hask
  rcases hat.nextIdentifier? hs' with ⟨c, after, token', l₃, rfl, hc, htext, heq', hat'⟩ |
    ⟨l₃, -, heq', -⟩
  · rw [heq'] at hask
    cases hask
    refine ⟨hkey, hat'.standing, fun ps hps => ?_⟩
    have hr := Reads.next hs' (lexeme?_identifier hc) (hat'.ahead_iff.1 hps)
    rw [← htext] at hr
    exact h.at.ahead_iff.2 (.next hs (lexeme?_point hs' hc hsymbol) hr)
  · rw [heq'] at hask
    cases hask

end Lexer

end LatentExpr
