import LatentExpr.Proofs.Token.Tables

/-!
What the requests of a parser take off a source. A parser asks for symbols before it asks for a token, and it
takes punctuation by its byte alone, so what it takes is a token of the table but in two cases: punctuation that
the table does not have, and an operator at a point that starts a number. Up to the first of these the source is
read as the tokens that are taken (`Cuts.readAs`).
-/
namespace LatentExpr

open Lexeme

/-! ### Cuts -/

/-- What a parser takes off a text. -/
inductive Taken where
  | token (p : Piece)
  /-- Punctuation that is no symbol of the table. -/
  | bare (c : Char)
  /-- An operator that begins with the point of a number. -/
  | early (symbol : String)

/-- What can be taken off the start of a text, with what is left. -/
inductive TakesOff (t : SymbolTable) : List Char → Taken → List Char → Prop where
  | token {start rest : List Char} {p : Piece} (h : lexeme? t.all start = some (p, rest)) :
    TakesOff t start (.token p) rest
  | bare {c : Char} {rest : List Char} (hc : c ∈ punctuation)
    (hpoint : c = '.' → rest.head?.any Char.isDigit = false) (hlost : t.all.longestIn? (c :: rest) = none) :
    TakesOff t (c :: rest) (.bare c) rest
  | early {g : OperatorGroup} {symbol : String} {after : List Char} (hg : g ≠ .punctuation)
    (hlists : t.Lists g symbol) (hlong : t.all.longestIn? ('.' :: after) = some symbol)
    (hdigit : after.head?.any Char.isDigit = true) :
    TakesOff t ('.' :: after) (.early symbol) (('.' :: after).drop symbol.length)

/-- What is taken off a text one after the other, up to its end. -/
inductive Cuts (t : SymbolTable) : List Char → List Taken → Prop where
  | done {text : List Char} (h : skipText text = some []) : Cuts t text []
  | next {text start rest : List Char} {x : Taken} {cut : List Taken} (hs : skipText text = some start)
    (hx : TakesOff t start x rest) (h : Cuts t rest cut) : Cuts t text (x :: cut)

/-- What is taken off a text is what the text is read as, up to the first thing that is no token: where bare
punctuation is taken, reading stops at it, and where an operator is taken early, a number is read. -/
inductive ReadAs : List Taken → List Piece → Option LexicalFault → Prop where
  | done : ReadAs [] [] none
  | token {p : Piece} {cut : List Taken} {ps : List Piece} {fault : Option LexicalFault}
    (h : ReadAs cut ps fault) : ReadAs (.token p :: cut) (p :: ps) fault
  | bare {c : Char} {cut : List Taken} : ReadAs (.bare c :: cut) [] (some (.unexpectedCharacter c))
  | early {symbol number : String} {cut : List Taken} {ps : List Piece} {fault : Option LexicalFault} :
    ReadAs (.early symbol :: cut) (.number number :: ps) fault

/-- Whether a symbol is a point, or a point and a digit come first. -/
def opensNumber (symbol : String) : Bool :=
  symbol.toList.head? = some '.' && (symbol.toList.drop 1).head?.all Char.isDigit

section
variable {t : SymbolTable} {text start rest : List Char} {c : Char} {s : String} {x : Taken}
  {cut : List Taken} {ps : List Piece} {fault : Option LexicalFault}

theorem Cuts.of_skipText_eq {text' : List Char} (h : Cuts t text cut) (hs : skipText text = skipText text') :
    Cuts t text' cut := by
  cases h with
  | done h => exact .done (hs ▸ h)
  | next h hx hr => exact .next (hs ▸ h) hx hr

/-- Every member of a cut was taken off some text. -/
theorem Cuts.takesOff_of_mem (h : Cuts t text cut) (hx : x ∈ cut) : ∃ start rest, TakesOff t start x rest := by
  induction h with
  | done => cases hx
  | next _ hx' _ ih =>
    rcases List.mem_cons.1 hx with rfl | hx
    · exact ⟨_, _, hx'⟩
    · exact ih hx

/-- Where nothing but tokens is taken, the text is read to its end. -/
theorem ReadAs.fault_eq_none (h : ReadAs cut ps fault) (hbare : ∀ c, .bare c ∉ cut)
    (hearly : ∀ s, .early s ∉ cut) : fault = none := by
  induction h with
  | done => rfl
  | token _ ih =>
    exact ih (fun c hc => hbare c (List.mem_cons_of_mem _ hc)) fun s hs => hearly s (List.mem_cons_of_mem _ hs)
  | bare => exact absurd List.mem_cons_self (hbare _)
  | early => exact absurd List.mem_cons_self (hearly _)

variable {definitions : List (String × List String)}

/-- Bare punctuation is not in the table. -/
theorem TakesOff.lost (h : TakesOff (.ofGroups definitions) start (.bare c) rest) :
    c ∈ punctuation ∧ c.toString ∉ (SymbolTable.ofGroups definitions).all.symbols := by
  cases h with
  | bare hc _ hlost =>
    refine ⟨hc, fun hmem => ?_⟩
    rcases Matcher.longestIn?_spec ((SymbolTable.ofGroups definitions).groups.flatMap fun g => g.2.symbols)
      (c :: rest) with ⟨s, -, -, hlong, -⟩ | ⟨-, hnone⟩
    · exact absurd (hlost.symm.trans hlong) nofun
    · exact hnone _ hmem ⟨rest, by simp⟩

/-- A symbol is a token where no number begins. -/
theorem TakesOff.symbol (hlong : (SymbolTable.ofGroups definitions).all.longestIn? start = some s)
    (hfirst : s.toList.head?.all beginsSymbol = true)
    (hpoint : ∀ after, start = '.' :: after → after.head?.any Char.isDigit = false) :
    TakesOff (.ofGroups definitions) start (.token (.symbol s)) (start.drop s.length) := by
  obtain ⟨hmem, others, rfl⟩ := Matcher.of_longestIn? hlong
  have hne := ((Matcher.mem_symbols_ofSymbols _ s).1 hmem).2
  refine .token ?_
  cases hlist : s.toList with
  | nil => exact absurd (String.toList_eq_nil_iff.1 hlist) hne
  | cons c more =>
    rw [hlist] at hlong hfirst hpoint
    have hplain : c = '.' → (more ++ others).head?.any Char.isDigit = false := by
      rintro rfl
      exact hpoint _ rfl
    rw [List.cons_append] at hlong ⊢
    rw [lexeme?_of_beginsSymbol hfirst hplain, hlong, Option.map_some]

/-- An operator that is taken early opens a number. -/
theorem TakesOff.opensNumber (h : TakesOff (.ofGroups definitions) start (.early s) rest) :
    ∃ g ≠ OperatorGroup.punctuation, (SymbolTable.ofGroups definitions).Lists g s ∧ opensNumber s = true := by
  cases h with
  | @early g _ after hg hlists hlong hdigit =>
    refine ⟨g, hg, hlists, ?_⟩
    obtain ⟨hmem, hpre⟩ := Matcher.of_longestIn? hlong
    have hne := ((Matcher.mem_symbols_ofSymbols _ s).1 hmem).2
    rw [LatentExpr.opensNumber]
    cases hlist : s.toList with
    | nil => exact absurd (String.toList_eq_nil_iff.1 hlist) hne
    | cons c more =>
      rw [hlist] at hpre
      obtain ⟨rfl, hmore⟩ := List.cons_prefix_cons.1 hpre
      cases more with
      | nil => rfl
      | cons d more =>
        obtain ⟨others, rfl⟩ := hmore
        exact hdigit

/-! ### Reading what is taken -/

open Lexer

theorem beginsSymbol_of_mem (hc : c ∈ punctuation) : beginsSymbol c = true :=
  have hall : ∀ c ∈ punctuation, beginsSymbol c = true := forall_mem_of_all (by decide)
  hall c hc

/-- Where no symbol and no other token begins, reading stops at the first character. -/
theorem Lexer.At.nextToken?_unexpected {l : Lexer} (h : l.At t text) (hs : skipText text = some (c :: rest))
    (hc : beginsSymbol c = true) (hpoint : c = '.' → rest.head?.any Char.isDigit = false)
    (hnone : t.all.longestIn? (c :: rest) = none) :
    ∃ e l', Lexer.nextToken? l = (.error e, l') ∧ e.fault = .unexpectedCharacter c := by
  obtain ⟨hzero, hdecimal, hident, hquote⟩ := of_beginsSymbol hc hpoint
  rw [Lexer.nextToken?]
  obtain ⟨l', hat, heq⟩ := h.advance_bind hs _
  rw [heq]
  simp only [Lexing.bind_apply, Lexing.get_apply, hat.readable, hat.rest, if_neg hzero, hdecimal, hident, hquote,
    Bool.false_eq_true, if_false, Lexing.map_apply, takeSymbol, hat.symbols, hnone]
  exact ⟨_, _, rfl, rfl⟩

/-- A source is read as what is taken off it, up to the first thing that is no token. -/
theorem Cuts.readAs {l : Lexer} (h : Cuts (.ofGroups definitions) text cut) (hat : l.At (.ofGroups definitions) text)
    {fuel : Nat} (hfuel : text.length < fuel) :
    ReadAs cut ((tokensWithin fuel l).1.map Token.piece) ((tokensWithin fuel l).2.map (·.fault)) := by
  -- only behind a token the reading goes on; what is no token decides it
  induction h generalizing l fuel with
  | @done text hs =>
    cases fuel with
    | zero => exact absurd hfuel (Nat.not_lt_zero _)
    | succ fuel =>
      rcases hat.nextToken? hs with ⟨l', -, hnext, -⟩ | ⟨p, rest, token, l', hl, -⟩ | ⟨e, l', hne, -⟩
      · rw [tokensWithin_succ_of_end fuel hnext]
        exact .done
      · cases hl
      · exact absurd rfl hne
  | @next text start rest x cut hs hx _ ih =>
    cases fuel with
    | zero => exact absurd hfuel (Nat.not_lt_zero _)
    | succ fuel =>
      cases hx with
      | @token _ _ p hl =>
        have hlt := length_lt_of_lexeme? hl
        have hle := length_le_of_skipText hs
        have hmore : rest.length < fuel := by omega
        obtain ⟨token, l', rfl, hnext, hat'⟩ := hat.nextToken?_some hs hl
        rw [tokensWithin_succ_of_token fuel hnext]
        exact .token (ih hat' hmore)
      | bare hc hpoint hlost =>
        obtain ⟨e, l', hnext, hfault⟩ := hat.nextToken?_unexpected hs (beginsSymbol_of_mem hc) hpoint hlost
        rw [tokensWithin_succ_of_fault fuel hnext, Option.map_some, hfault]
        exact .bare
      | @early _ _ after _ _ _ hdigit =>
        have hnumber : lexeme? (SymbolTable.ofGroups definitions).all ('.' :: after) = _ :=
          lexeme?_decimal (by decide) hdigit
        obtain ⟨token, l', hpiece, hnext, -⟩ := hat.nextToken?_some hs hnumber
        rw [tokensWithin_succ_of_token fuel hnext, List.map_cons, hpiece]
        exact .early

/-! ### Requests -/

/-- Where a punctuation character was taken, it comes next, and no symbol of several bytes does. -/
theorem Lexer.At.consume_true {l l' : Lexer} (h : l.At t text) (hc : c ∈ punctuation)
    (hask : Lexer.consume c l = (.ok true, l')) :
    ∃ rest, skipText text = some (c :: rest) ∧ l'.At t rest ∧
      ∀ s ∈ t.all.longestIn? (c :: rest), s.utf8ByteSize ≤ 1 := by
  obtain ⟨start, hs⟩ := h.skip_of_ok hask
  obtain ⟨l₁, hat, heq⟩ := h.consume_eq hs hc
  rw [heq] at hask
  split at hask
  · rename_i hcond
    obtain ⟨hhead, hsmall⟩ := hcond
    obtain ⟨rest, rfl⟩ := List.head?_eq_some_iff.1 hhead
    cases hask
    refine ⟨rest, hs, hat.pastByte hc, fun s hlong => ?_⟩
    rw [Option.mem_def.1 hlong] at hsmall
    exact of_decide_eq_true hsmall
  · cases hask

/-- A lexer has taken some things off a source and stands before the rest. -/
structure Lexer.CutOff (l : Lexer) (t : SymbolTable) (source : List Char) : Prop where
  standing : l.At t l.rest
  -- what was taken can only be told a cut of the source once the rest is cut too
  cut : ∃ cut, ∀ more, Cuts t l.rest more → Cuts t source (cut ++ more)

namespace Lexer.CutOff
variable {l l' l'' : Lexer} {source : List Char}

theorem ofSource (source : String) (t : SymbolTable) : (Lexer.ofSource source t).CutOff t source.toList :=
  ⟨.ofSource source t, [], fun _ h => h⟩

/-- What is skipped is no part of a cut. -/
theorem skip (h : l.CutOff t source) (hs : skipText l.rest = some start) (hat : l'.At t start) :
    l'.CutOff t source := by
  obtain ⟨cut, hcut⟩ := h.cut
  obtain rfl := hat.rest
  exact ⟨hat, cut, fun more hmore => hcut more (hmore.of_skipText_eq ((skipText_of_skipText hs).trans hs.symm))⟩

theorem take (h : l.CutOff t source) (hs : skipText l.rest = some start) (hx : TakesOff t start x rest)
    (hat : l'.At t rest) : l'.CutOff t source := by
  obtain ⟨cut, hcut⟩ := h.cut
  obtain rfl := hat.rest
  refine ⟨hat, cut ++ [x], fun more hmore => ?_⟩
  rw [List.append_assoc]
  exact hcut _ (.next hs hx hmore)

theorem advance (h : l.CutOff t source) (hask : Lexer.advance l = (.ok (), l')) : l'.CutOff t source := by
  have hbind : (Lexer.advance >>= pure) l = (.ok (), l') := by rw [bind_pure, hask]
  obtain ⟨start, hs⟩ := h.standing.skip_of_ok hbind
  obtain ⟨l'', heq, hat⟩ := h.standing.advance hs
  rw [heq] at hask
  cases hask
  exact h.skip hs hat

theorem peek? (h : l.CutOff t source) {answer : Option Char} (hask : Lexer.peek? l = (.ok answer, l')) :
    l'.CutOff t source := by
  obtain ⟨start, hs⟩ := h.standing.skip_of_ok hask
  obtain ⟨l'', heq, hat⟩ := h.standing.peek? hs
  rw [heq] at hask
  cases hask
  exact h.skip hs hat

theorem nextToken? (h : l.CutOff t source) {answer : Option Token}
    (hask : Lexer.nextToken? l = (.ok answer, l')) : l'.CutOff t source := by
  obtain ⟨start, hs⟩ := h.standing.skip_of_ok hask
  rcases h.standing.nextToken? hs with ⟨l'', -, heq, hat⟩ | ⟨p, rest, token, l'', hl, -, heq, hat⟩ |
    ⟨e, l'', -, -, heq⟩
  · rw [heq] at hask
    cases hask
    exact h.skip hs hat
  · rw [heq] at hask
    cases hask
    exact h.take hs (.token hl) hat
  · rw [heq] at hask
    cases hask

/-- A lexer that has nothing left has cut the whole source. -/
theorem hasRemaining (h : l.CutOff t source) (hask : Lexer.hasRemaining l = (.ok false, l')) :
    ∃ cut, Cuts t source cut := by
  have hbind := hask
  rw [Lexer.hasRemaining, Lexer.peekByte?, bind_assoc] at hbind
  obtain ⟨start, hs⟩ := h.standing.skip_of_ok hbind
  obtain ⟨l'', heq, -⟩ := h.standing.hasRemaining hs
  rw [heq] at hask
  cases start with
  | nil =>
    obtain ⟨cut, hcut⟩ := h.cut
    exact ⟨cut ++ [], hcut [] (.done hs)⟩
  | cons c after => cases hask

/-- An operator is a token, or it is taken early. -/
theorem consumeSymbol? (h : l.CutOff (.ofGroups definitions) source)
    (hsymbols : ∀ s ∈ (SymbolTable.ofGroups definitions).all.symbols, s.toList.head?.all beginsSymbol = true)
    {g : OperatorGroup} (hg : g ≠ .punctuation) {answer : Option Name}
    (hask : Lexer.consumeSymbol? g l = (.ok answer, l')) : l'.CutOff (.ofGroups definitions) source := by
  obtain ⟨start, hs⟩ := h.standing.skip_of_ok hask
  rcases h.standing.consumeSymbol?_eq hs g with ⟨s, name, l'', hgroup, hlong, -, heq, hat⟩ | ⟨l'', -, heq, hat⟩
  · rw [heq] at hask
    cases hask
    -- the group's longest symbol is taken with no look at numbers, which a token would be read as first
    by_cases hearly : ∃ after, start = '.' :: after ∧ after.head?.any Char.isDigit = true
    · obtain ⟨after, rfl, hdigit⟩ := hearly
      exact h.take hs (.early hg (SymbolTable.lists_of_longestIn? hgroup) hlong hdigit) hat
    · refine h.take hs (.symbol hlong (hsymbols s (Matcher.of_longestIn? hlong).1) fun after hstart => ?_) hat
      rw [Bool.eq_false_iff]
      exact fun hdigit => hearly ⟨after, hstart, hdigit⟩
  · rw [heq] at hask
    cases hask
    exact h.skip hs hat

theorem consumeText (h : l.CutOff (.ofGroups definitions) source) {op : LogicalOp} {answer : Bool}
    (hask : Lexer.consumeText op.symbol l = (.ok answer, l')) : l'.CutOff (.ofGroups definitions) source := by
  obtain ⟨start, hs⟩ := h.standing.skip_of_ok hask
  obtain ⟨l'', heq, hat⟩ := h.standing.consumeText_eq hs op.symbol
  rw [heq] at hask
  cases hask
  split at hat
  · rename_i hlong
    refine h.take hs (.symbol hlong ?_ fun after hstart => ?_) hat
    · cases op <;> decide
    · obtain ⟨-, others, hothers⟩ := Matcher.of_longestIn? hlong
      rw [hstart] at hothers
      cases op <;> simp [LogicalOp.symbol] at hothers
  · exact h.skip hs hat

/-- Punctuation is a token or bare, where a point stands before no digit. -/
theorem consume_true (h : l.CutOff (.ofGroups definitions) source) (hc : c ∈ punctuation)
    (hask : Lexer.consume c l = (.ok true, l')) (hpoint : c = '.' → l'.rest.head?.any Char.isDigit = false) :
    l'.CutOff (.ofGroups definitions) source := by
  obtain ⟨rest, hs, hat, hsmall⟩ := h.standing.consume_true hc hask
  rw [hat.rest] at hpoint
  cases hlong : (SymbolTable.ofGroups definitions).all.longestIn? (c :: rest) with
  | none => exact h.take hs (.bare hc hpoint hlong) hat
  | some s =>
    -- a symbol of one byte that begins here is the character itself
    obtain ⟨hmem, hpre⟩ := Matcher.of_longestIn? hlong
    have hne := ((Matcher.mem_symbols_ofSymbols _ s).1 hmem).2
    obtain rfl := eq_toString_of_small hpre hne (hsmall s hlong)
    have htake := TakesOff.symbol hlong (by simpa using beginsSymbol_of_mem hc) fun after hstart => by
      obtain ⟨rfl, rfl⟩ := List.cons.inj hstart
      exact hpoint rfl
    exact h.take hs htake (by simpa using hat)

theorem consume_false (h : l.CutOff t source) (hc : c ∈ punctuation)
    (hask : Lexer.consume c l = (.ok false, l')) : l'.CutOff t source := by
  obtain ⟨start, hs⟩ := h.standing.skip_of_ok hask
  obtain ⟨l'', hat, heq⟩ := h.standing.consume_eq hs hc
  rw [heq] at hask
  split at hask
  · cases hask
  · cases hask
    exact h.skip hs hat

/-- A point that a name follows stands before no digit. -/
theorem point (h : l.CutOff (.ofGroups definitions) source) (hask : Lexer.consume '.' l = (.ok true, l'))
    {token : Token} (hname : Lexer.nextIdentifier? l' = (.ok (some token), l'')) :
    l''.CutOff (.ofGroups definitions) source := by
  obtain ⟨rest, -, hat, -⟩ := h.standing.consume_true (by decide) hask
  obtain ⟨start, hs⟩ := hat.skip_of_ok hname
  rcases hat.nextIdentifier? hs with ⟨c, after, token', l₁, rfl, hc, -, heq, hat'⟩ | ⟨l₁, -, heq, -⟩
  · rw [heq] at hname
    cases hname
    rw [← hat.rest] at hs
    have hmore := h.consume_true (by decide) hask fun _ => no_digit_of_skipText hs hc
    exact hmore.take hs (.token (lexeme?_identifier hc)) hat'
  · rw [heq] at hname
    cases hname

end Lexer.CutOff

end

end LatentExpr
