import LatentExpr.Proofs.Engine.Configured
import LatentExpr.Proofs.Token.Again

/-!
Requests to a lexer with any table of symbols. No request changes the table (`Lexing.Gives`), a symbol that is
taken for a group is one that the table lists there, and a token that is no symbol is the only token of its own
text.
-/
namespace LatentExpr

/-! ### Tables -/

namespace SymbolTable

/-- A table lists a symbol in a group. -/
def Lists (t : SymbolTable) (group : OperatorGroup) (symbol : String) : Prop :=
  ∃ m, t.group? group.name = some m ∧ symbol ∈ m.symbols

/-- A table with symbols for every group. -/
theorem lists_ofGroups {listed : OperatorGroup → List String} {g : OperatorGroup} {symbol : String} :
    (ofGroups (OperatorGroup.all.map fun g => (g.name, listed g))).Lists g symbol ↔
      symbol ∈ listed g ∧ symbol ≠ "" := by
  rw [Lists, group?_ofGroups]
  simp only [Option.some.injEq, exists_eq_left', Matcher.mem_symbols_ofSymbols]

/-- The matchers of a table are made of symbols. -/
theorem eq_ofSymbols_of_group? {definitions : List (String × List String)} {name : String} {m : Matcher}
    (h : (ofGroups definitions).group? name = some m) : ∃ symbols, m = .ofSymbols symbols := by
  unfold group? at h
  split at h
  · obtain rfl := Option.some.inj h
    exact ⟨_, rfl⟩
  · obtain ⟨before, after, heq, -⟩ := List.lookup_eq_some_iff.1 h
    have hmem : (name, m) ∈ (ofGroups definitions).groups := by simp [heq]
    rcases mem_foldl_define hmem with hnil | ⟨d, -, hd⟩
    · exact absurd hnil List.not_mem_nil
    · exact ⟨d.2, hd⟩

/-- The longest symbol that is found for a group is one of the group. -/
theorem lists_of_longestIn? {definitions : List (String × List String)} {group : OperatorGroup}
    {text : List Char} {symbol : String}
    (h : ((ofGroups definitions).group? group.name).bind (·.longestIn? text) = some symbol) :
    (ofGroups definitions).Lists group symbol := by
  obtain ⟨m, hm, hlong⟩ := Option.bind_eq_some_iff.1 h
  obtain ⟨symbols, rfl⟩ := eq_ofSymbols_of_group? hm
  exact ⟨_, hm, (Matcher.of_longestIn? hlong).1⟩

/-- The union has every symbol that is listed in a group. -/
theorem mem_all_of_lists {definitions : List (String × List String)} {group : OperatorGroup} {symbol : String}
    (h : (ofGroups definitions).Lists group symbol) : symbol ∈ (ofGroups definitions).all.symbols := by
  obtain ⟨m, hm, hmem⟩ := h
  obtain ⟨symbols, rfl⟩ := eq_ofSymbols_of_group? hm
  unfold group? at hm
  split at hm
  · rw [Option.some.inj hm]
    exact hmem
  · obtain ⟨before, after, heq, -⟩ := List.lookup_eq_some_iff.1 hm
    have hgroup : (group.name, .ofSymbols symbols) ∈ (ofGroups definitions).groups := by simp [heq]
    exact (Matcher.mem_symbols_ofSymbols _ symbol).2 ⟨List.mem_flatMap.2 ⟨_, hgroup, hmem⟩,
      ((Matcher.mem_symbols_ofSymbols symbols symbol).1 hmem).2⟩

end SymbolTable

/-! ### Requests -/

namespace Lexing
variable {α β : Type} {t : SymbolTable} {P : α → Prop} {Q : β → Prop} {x : Lexing α} {f : α → Lexing β}

/-- A request that is answered keeps an invariant of the lexer. -/
def Keeps (I : Lexer → Prop) (x : Lexing α) : Prop :=
  ∀ {l l' : Lexer} {a : α}, I l → x l = (.ok a, l') → I l'

/-- A request that is answered leaves a lexer with the table that it has, and its answer has a property. -/
def Gives (t : SymbolTable) (x : Lexing α) (P : α → Prop) : Prop :=
  ∀ (l l' : Lexer) a, l.symbols = t → x l = (.ok a, l') → l'.symbols = t ∧ P a

theorem Gives.keeps (h : Gives t x P) : Keeps (fun l => l.symbols = t) x := fun hl hx => (h _ _ _ hl hx).1

theorem Gives.pure {a : α} (ha : P a) : Gives t (Pure.pure a) P := by
  rintro l l' a hl ⟨⟩
  exact ⟨hl, ha⟩

theorem Gives.bind (hx : Gives t x P) (hf : ∀ a, P a → Gives t (f a) Q) : Gives t (x >>= f) Q := by
  intro l l'' b hl h
  rw [bind_apply] at h
  split at h
  · rename_i a l' hanswer
    obtain ⟨hl', ha⟩ := hx l l' a hl hanswer
    exact hf a ha l' l'' b hl' h
  · cases h

theorem Gives.map {g : α → β} (hx : Gives t x P) (hg : ∀ a, P a → Q (g a)) : Gives t (g <$> x) Q := by
  rw [map_eq_pure_bind]
  exact .bind hx fun a ha => .pure (hg a ha)

theorem Gives.get : Gives t get fun l => l.symbols = t := by
  rintro l l' a hl ⟨⟩
  exact ⟨hl, hl⟩

theorem Gives.set {l : Lexer} (hl : l.symbols = t) : Gives t (set l) fun _ => True := by
  rintro l₁ l' a - ⟨⟩
  exact ⟨hl, trivial⟩

end Lexing

namespace Lexer
variable {t : SymbolTable} {l : Lexer}

open Lexing Lexeme

theorem symbols_skip (l : Lexer) : (skip l).2.symbols = l.symbols := by
  fun_induction skip l with
  | case1 | case3 | case6 => rfl
  | case2 _ _ _ _ _ ih | case4 _ _ _ _ _ _ _ _ _ ih | case5 _ _ _ _ _ _ _ ih => exact ih

theorem gives_advance : Gives t advance fun _ => True := by
  intro l l' _ hl h
  unfold advance at h
  split at h
  · have hskip := symbols_skip l
    rw [h] at hskip
    exact ⟨hskip.trans hl, trivial⟩
  · obtain ⟨-, rfl⟩ := Prod.mk.inj h
    exact ⟨hl, trivial⟩

theorem symbols_pastByte (l : Lexer) : l.pastByte.symbols = l.symbols := by
  unfold pastByte
  split <;> rfl

theorem gives_consume (c : Char) : Gives t (consume c) fun _ => True := by
  refine .bind gives_advance fun _ _ => .bind .get fun l hl => ?_
  split
  · exact .bind (.set ((symbols_pastByte l).trans hl)) fun _ _ => .pure trivial
  · exact .pure trivial

theorem gives_consumeText (text : String) : Gives t (consumeText text) fun _ => True := by
  refine .bind gives_advance fun _ _ => .bind .get fun l hl => ?_
  split
  · exact .bind (.set hl) fun _ _ => .pure trivial
  · exact .pure trivial

theorem gives_peek? : Gives t peek? fun _ => True :=
  .bind gives_advance fun _ _ => .bind .get fun _ _ => .pure trivial

/-- A symbol that is taken for a group is one of the group. -/
theorem gives_consumeSymbol? {definitions : List (String × List String)} (ht : t = .ofGroups definitions)
    (group : OperatorGroup) :
    Gives t (consumeSymbol? group) fun answer => ∀ name ∈ answer, t.Lists group name.text := by
  refine .bind gives_advance fun _ _ => .bind .get fun l hl => ?_
  split
  · exact .pure nofun
  rw [hl, ht]
  split
  · exact .pure nofun
  · rename_i symbol hfound
    have hlists := SymbolTable.lists_of_longestIn? hfound
    split
    · refine .bind (.set (hl.trans ht)) fun _ _ => .pure ?_
      rintro name ⟨⟩
      have htext : (l.interner.intern symbol).1.text = symbol := Interner.text_intern _ _
      exact htext.symm ▸ hlists
    · exact .pure nofun

theorem gives_take (kind : TokenKind) (text rest : List Char) :
    Gives t (take kind text rest) fun _ => True := by
  refine .bind .get fun l hl => ?_
  cases kind <;> exact .bind (.set hl) fun _ _ => .pure trivial

theorem gives_nextIdentifier? : Gives t nextIdentifier? fun _ => True := by
  refine .bind gives_advance fun _ _ => .bind .get fun l hl => ?_
  split
  · exact .pure trivial
  · split
    · obtain ⟨text, rest⟩ := identifier l.rest
      exact .map (gives_take _ _ _) fun _ _ => trivial
    · exact .pure trivial

/-- Inside of a character there is no token. -/
theorem nextToken?_of_split (h : l.split ≠ []) : nextToken? l = (.ok none, l) := by
  have hadvance : advance l = (.ok (), l) := by
    unfold advance
    rw [if_neg (by simpa using h)]
  have hreadable : l.readable = [] := by
    unfold readable
    rw [if_neg (by simpa using h)]
  rw [nextToken?, bind_apply, hadvance]
  simp only [bind_apply, get_apply, hreadable]
  rfl

/-- What is taken as the next token is a lexeme. -/
theorem gives_nextToken? :
    Gives t nextToken? fun answer =>
      ∀ token ∈ answer, ∃ start rest, lexeme? t.all start = some (token.piece, rest) := by
  rintro l l' answer rfl h
  by_cases hsplit : l.split = []
  · have hat : l.At l.symbols l.rest := ⟨hsplit, rfl, rfl⟩
    cases hs : skipText l.rest with
    | none =>
      obtain ⟨e, l'', hfault⟩ := hat.nextToken?_unclosed hs
      rw [hfault] at h
      cases h
    | some start =>
      rcases hat.nextToken? hs with ⟨l'', -, hnext, hat'⟩ | ⟨p, rest, token, l'', hl, rfl, hnext, hat'⟩ |
        ⟨e, l'', -, -, hnext⟩
      · rw [hnext] at h
        cases h
        exact ⟨hat'.symbols, nofun⟩
      · rw [hnext] at h
        cases h
        refine ⟨hat'.symbols, ?_⟩
        rintro _ ⟨⟩
        exact ⟨start, rest, hl⟩
      · rw [hnext] at h
        cases h
  · rw [nextToken?_of_split hsplit] at h
    cases h
    exact ⟨rfl, nofun⟩

/-- Every token of a source is a lexeme, also before a fault. -/
theorem lexeme?_of_mem_tokensWithin {fuel : Nat} (hl : l.symbols = t) :
    ∀ token ∈ (tokensWithin fuel l).1, ∃ start rest, lexeme? t.all start = some (token.piece, rest) := by
  induction fuel generalizing l with
  | zero => nofun
  | succ fuel ih =>
    cases hnext : nextToken? l with
    | mk answer l' =>
      match answer with
      | .error e =>
        rw [tokensWithin_succ_of_fault fuel hnext]
        nofun
      | .ok none =>
        rw [tokensWithin_succ_of_end fuel hnext]
        nofun
      | .ok (some token) =>
        obtain ⟨hl', htoken⟩ := gives_nextToken? l l' _ hl hnext
        rw [tokensWithin_succ_of_token fuel hnext]
        exact List.forall_mem_cons.2 ⟨htoken token rfl, ih hl'⟩

end Lexer

open Lexer Lexeme in
theorem lexeme?_of_mem_tokenize {t : SymbolTable} {source : String} {token : Token}
    (h : token ∈ (tokenize source t).1) : ∃ start rest, lexeme? t.all start = some (token.piece, rest) :=
  lexeme?_of_mem_tokensWithin rfl token h

/-! ### Constants -/

/-- A text is exactly one token, of the kind of a constant. -/
def ConstantKind.IsToken (t : SymbolTable) (kind : ConstantKind) (text : String) : Prop :=
  ∃ token, tokenize text t = ([token], none) ∧ token.piece = ⟨kind.token, text⟩

open Lexer Lexeme in
/-- A lexeme that is no symbol is the only token of its text. -/
theorem Lexeme.tokenize_text {t : SymbolTable} {start rest : List Char} {q : Piece}
    (h : lexeme? t.all start = some (q, rest)) (hkind : q.kind ≠ .symbol) :
    ∃ token, tokenize q.text t = ([token], none) ∧ token.piece = q := by
  have hagain : lexeme? t.all q.text.toList = some (q, []) := by
    rw [← List.append_nil q.text.toList]
    exact lexeme?_again h hkind nofun nofun
  obtain ⟨c, more, hstart, hskip⟩ := skipText_of_lexeme? hagain hkind
  rcases (At.ofSource q.text t).nextToken? (hstart ▸ hskip more) with ⟨-, hnil, -⟩ |
    ⟨p, rest', token, l, hl, hp, hnext, hat⟩ | ⟨-, -, -, hnone, -⟩
  · rw [hstart] at hnil
    cases hnil
  · rw [hagain] at hl
    obtain ⟨rfl, rfl⟩ := Prod.mk.inj (Option.some.inj hl)
    refine ⟨token, ?_, hp⟩
    have hnothing : skipText [] = some [] := by rw [skipText]
    rcases hat.nextToken? hnothing with ⟨l', -, hend, -⟩ |
      ⟨p, _, _, _, hl, -⟩ | ⟨_, _, hne, -⟩
    · rw [tokenize, tokens, tokensWithin_succ_of_token _ hnext]
      show (token :: (tokensWithin q.text.toList.length l).1, (tokensWithin q.text.toList.length l).2) = _
      rw [hstart, List.length_cons, tokensWithin_succ_of_end _ hend]
    · cases hl
    · exact absurd rfl hne
  · rw [hagain] at hnone
    cases hnone

end LatentExpr
