import LatentExpr.Proofs.Token.Reads

/-!
What the requests of a parser do before a text. Behind the blanks the longest symbol of all groups decides
every request for a symbol, also where a shorter one was asked for; with the built-in symbols that is also the
only way to take punctuation.
-/
namespace LatentExpr

/-! ### Requests in sequence -/

namespace Lexing

variable {α β : Type}

theorem bind_apply (x : Lexing α) (f : α → Lexing β) (l : Lexer) :
    (x >>= f) l =
      match x l with
      | (.ok a, l') => f a l'
      | (.error e, l') => (.error e, l') := by
  show (match x l with | (a, s) => (ExceptT.bindCont f a : StateM Lexer _) s) = _
  obtain ⟨a, l'⟩ := x l
  cases a <;> rfl

theorem pure_apply (a : α) (l : Lexer) : (pure a : Lexing α) l = (.ok a, l) := rfl

theorem get_apply (l : Lexer) : (get : Lexing Lexer) l = (.ok l, l) := rfl

theorem set_apply (l l' : Lexer) : (set l' : Lexing PUnit) l = (.ok ⟨⟩, l') := rfl

theorem map_apply (f : α → β) (x : Lexing α) (l : Lexer) :
    (f <$> x) l =
      match x l with
      | (.ok a, l') => (.ok (f a), l')
      | (.error e, l') => (.error e, l') := by
  rw [map_eq_pure_bind, bind_apply]
  rfl

theorem snd_map (f : α → β) (x : Lexing α) (l : Lexer) : ((f <$> x) l).2 = (x l).2 := by
  rw [map_apply]
  split <;> simp_all

end Lexing

/-! ### The built-in symbols -/

namespace Lexeme

/-- The longest built-in symbol at the start of a text. -/
def symbol? (text : List Char) : Option String := SymbolTable.builtIn.all.longestIn? text

/-- The punctuation characters of the grammar. -/
def punctuation : List Char := ['(', ')', '[', ']', '\x7b', '\x7d', ',', '.', '?', ':']

end Lexeme

namespace SymbolTable

theorem symbols_builtIn : builtIn.all.symbols = ["!", "!=", "!==", "%", "&&", "(", ")", "*", "+", ",", "-",
    ".", "/", ":", "<", "<=", "=", "==", "===", ">", ">=", "?", "[", "]", "\x7b", "||", "\x7d"] := by
  decide

theorem group?_ofGroups (listed : OperatorGroup → List String) (g : OperatorGroup) :
    (ofGroups (OperatorGroup.all.map fun g => (g.name, listed g))).group? g.name =
      some (.ofSymbols (listed g)) := by
  cases g <;> rfl

theorem group?_builtIn (g : OperatorGroup) : builtIn.group? g.name = some (.ofSymbols g.builtIn) :=
  group?_ofGroups OperatorGroup.builtIn g

theorem builtIn_subset (g : OperatorGroup) : g.builtIn ⊆ builtIn.all.symbols := by
  rw [symbols_builtIn]
  cases g <;> decide

/-- No symbol is found at the end of a text. -/
theorem longestIn?_nil {definitions : List (String × List String)} :
    (ofGroups definitions).all.longestIn? [] = none := by
  rcases Matcher.longestIn?_spec ((ofGroups definitions).groups.flatMap fun g => g.2.symbols) [] with
    ⟨s, hmem, hpre, -⟩ | ⟨hnone, -⟩
  · have hne := ((Matcher.mem_symbols_ofSymbols _ s).1 hmem).2
    exact absurd (String.toList_eq_nil_iff.1 (List.prefix_nil.1 hpre)) hne
  · exact hnone

theorem toString_mem {c : Char} (h : c ∈ Lexeme.punctuation) : c.toString ∈ builtIn.all.symbols := by
  have hall : ∀ c ∈ Lexeme.punctuation, c.toString ∈ builtIn.all.symbols := by
    rw [symbols_builtIn]
    exact forall_mem_of_all (by decide)
  exact hall c h

end SymbolTable

namespace Lexeme

variable {text start : List Char} {s : String}

theorem symbol?_nil : symbol? [] = none := SymbolTable.longestIn?_nil

/-- A built-in symbol that begins a text begins the longest one. -/
theorem symbol?_of_prefix (hs : s ∈ SymbolTable.builtIn.all.symbols) (h : s.toList <+: start) :
    ∃ longest, symbol? start = some longest ∧ longest ∈ SymbolTable.builtIn.all.symbols ∧
      longest.toList <+: start ∧ s.toList <+: longest.toList := by
  rcases Matcher.longestIn?_spec _ start with ⟨longest, hmem, hpre, heq, hlongest⟩ | ⟨-, hnone⟩
  · exact ⟨longest, heq, hmem, hpre, hlongest s hs h⟩
  · exact absurd h (hnone s hs)

theorem of_symbol? (h : symbol? start = some s) :
    s ∈ SymbolTable.builtIn.all.symbols ∧ s.toList <+: start := Matcher.of_longestIn? h

theorem bytes_punctuation {c : Char} (h : c ∈ punctuation) :
    Matcher.bytes [c] = [(String.utf8EncodeChar c).headD 0] := by
  have hall : ∀ c ∈ punctuation, Matcher.bytes [c] = [(String.utf8EncodeChar c).headD 0] :=
    forall_mem_of_all (by decide)
  exact hall c h

/-- The byte of a punctuation character comes first exactly where the character does. -/
theorem head?_bytes_punctuation {c : Char} (hc : c ∈ punctuation) :
    (Matcher.bytes start).head? = some ((String.utf8EncodeChar c).headD 0) ↔ start.head? = some c := by
  have hbytes := bytes_punctuation hc
  constructor
  · intro h
    have hpre : [c] <+: start := by
      rw [← Matcher.bytes_prefix_iff, hbytes]
      cases hb : Matcher.bytes start with
      | nil => simp [hb] at h
      | cons b more =>
        rw [hb] at h
        obtain rfl := Option.some.inj h
        exact ⟨more, rfl⟩
    obtain ⟨rest, rfl⟩ := hpre
    rfl
  · intro h
    obtain ⟨rest, rfl⟩ := List.head?_eq_some_iff.1 h
    have hencode : String.utf8EncodeChar c = [(String.utf8EncodeChar c).headD 0] := by
      simpa [Matcher.bytes] using hbytes
    rw [Matcher.bytes_cons, hencode]
    rfl

/-- A symbol of one byte that begins a text is the first character of the text. -/
theorem eq_toString_of_small {c : Char} {rest : List Char} (h : s.toList <+: c :: rest) (hne : s ≠ "")
    (hsmall : s.utf8ByteSize ≤ 1) : s = c.toString := by
  have hlist : c.toString.toList = [c] := by simp
  have hlength := Matcher.length_le_length_bytes s.toList
  rw [Matcher.length_bytes_toList] at hlength
  rw [← String.toList_inj, hlist]
  cases htext : s.toList with
  | nil => exact absurd (String.toList_eq_nil_iff.1 htext) hne
  | cons d more =>
    rw [htext] at h hlength
    obtain ⟨rfl, -⟩ := List.cons_prefix_cons.1 h
    have hnil : more.length = 0 := by
      rw [List.length_cons] at hlength
      omega
    rw [List.length_eq_zero_iff.1 hnil]

/-- A punctuation character is the longest symbol exactly where it comes first and no symbol of several
bytes does. -/
theorem symbol?_punctuation {c : Char} (hc : c ∈ punctuation) :
    symbol? start = some c.toString ↔
      start.head? = some c ∧ ((symbol? start).all fun s => s.utf8ByteSize ≤ 1) = true := by
  have hbytes := bytes_punctuation hc
  have hlist : c.toString.toList = [c] := by simp
  constructor
  · intro h
    obtain ⟨-, rest, rfl⟩ := of_symbol? h
    have hsize : c.toString.utf8ByteSize = 1 := by
      rw [← Matcher.length_bytes_toList, hlist, hbytes, List.length_singleton]
    refine ⟨by rw [hlist]; rfl, ?_⟩
    rw [h, Option.all_some, hsize]
    rfl
  · rintro ⟨hhead, hsmall⟩
    obtain ⟨rest, rfl⟩ := List.head?_eq_some_iff.1 hhead
    have hpre : c.toString.toList <+: c :: rest := ⟨rest, by rw [hlist]; rfl⟩
    obtain ⟨longest, heq, hmem, hlong, -⟩ := symbol?_of_prefix (SymbolTable.toString_mem hc) hpre
    have hne : longest ≠ "" := ((Matcher.mem_symbols_ofSymbols _ longest).1 hmem).2
    rw [heq, Option.all_some, decide_eq_true_eq] at hsmall
    rw [heq, eq_toString_of_small hlong hne hsmall]

/-- The longest symbol of a group is the longest of all, if that belongs to the group. -/
theorem longestIn?_group {g : OperatorGroup} (hs : s ∈ g.builtIn) (h : symbol? start = some s) :
    (Matcher.ofSymbols g.builtIn).longestIn? start = some s := by
  obtain ⟨hmem, hpre⟩ := of_symbol? h
  have hne : s ≠ "" := ((Matcher.mem_symbols_ofSymbols _ s).1 hmem).2
  have hlisted := (Matcher.mem_symbols_ofSymbols g.builtIn s).2 ⟨hs, hne⟩
  rcases Matcher.longestIn?_spec g.builtIn start with ⟨s', hmem', hpre', heq, hlongest⟩ | ⟨-, hnone⟩
  · have hle : s.toList <+: s'.toList := hlongest s hlisted hpre
    have hall : s' ∈ SymbolTable.builtIn.all.symbols :=
      SymbolTable.builtIn_subset g ((Matcher.mem_symbols_ofSymbols _ s').1 hmem').1
    obtain ⟨longest, hlong, -, -, hge⟩ := symbol?_of_prefix hall hpre'
    rw [h] at hlong
    obtain rfl := Option.some.inj hlong
    rw [heq, String.toList_inj.1 (hle.eq_of_length (Nat.le_antisymm hle.length_le hge.length_le))]
  · exact absurd hpre (hnone s hlisted)

end Lexeme

namespace Lexer

open Lexeme

variable {l : Lexer} {text start : List Char}

theorem At.readable {symbols : SymbolTable} (h : l.At symbols text) : l.readable = text := by
  simp [Lexer.readable, h.split, h.rest]

theorem advance_eq_skip {symbols : SymbolTable} (h : l.At symbols text) : advance l = skip l := by
  show (if l.split.isEmpty then skip l else (.ok (), l)) = _
  rw [h.split]
  rfl

/-- A request that first skips the blanks answers as it does behind them. -/
theorem At.advance_bind {α : Type} {symbols : SymbolTable} (h : l.At symbols text)
    (hs : skipText text = some start) (request : Unit → Lexing α) :
    ∃ l', l'.At symbols start ∧ (advance >>= request) l = request () l' := by
  rw [Lexing.bind_apply, advance_eq_skip h]
  rcases h.skip with ⟨start', l', hs', hskip, hat⟩ | ⟨e, l', hs', -⟩
  · rw [hs] at hs'
    obtain rfl := Option.some.inj hs'
    rw [hskip]
    exact ⟨l', hat, rfl⟩
  · rw [hs] at hs'
    cases hs'

/-- A request faults before a comment that is not closed. -/
theorem At.advance_bind_unclosed {α : Type} {symbols : SymbolTable} (h : l.At symbols text)
    (hs : skipText text = none) (request : Unit → Lexing α) :
    ∃ e l', (advance >>= request) l = (.error e, l') := by
  rw [Lexing.bind_apply, advance_eq_skip h]
  rcases h.skip with ⟨start', l', hs', -⟩ | ⟨e, l', -, hskip⟩
  · rw [hs] at hs'
    cases hs'
  · rw [hskip]
    exact ⟨e, l', rfl⟩

/-- A request is answered only where every skipped comment is closed. -/
theorem At.skip_of_ok {α : Type} {symbols : SymbolTable} {request : Unit → Lexing α} {a : α} {l' : Lexer}
    (h : l.At symbols text) (hask : (advance >>= request) l = (.ok a, l')) :
    ∃ start, skipText text = some start := by
  cases hs : skipText text with
  | some start => exact ⟨start, rfl⟩
  | none =>
    obtain ⟨e, l'', herr⟩ := h.advance_bind_unclosed hs request
    rw [herr] at hask
    cases hask

theorem At.advance {symbols : SymbolTable} (h : l.At symbols text) (hs : skipText text = some start) :
    ∃ l', Lexer.advance l = (.ok (), l') ∧ l'.At symbols start := by
  obtain ⟨l', hat, heq⟩ := h.advance_bind hs pure
  rw [bind_pure] at heq
  exact ⟨l', heq, hat⟩

/-- The byte of a punctuation character is the whole character. -/
theorem At.pastByte {symbols : SymbolTable} {c : Char} {rest : List Char} (h : l.At symbols (c :: rest))
    (hc : c ∈ punctuation) : l.pastByte.At symbols rest := by
  refine ⟨?_, ?_, ?_⟩
  · simp [Lexer.pastByte, h.split, h.rest, bytes_punctuation hc]
  · simpa [Lexer.pastByte, h.split] using h.symbols
  · simp [Lexer.pastByte, h.split, h.rest]

/-- A punctuation character is taken where it comes first and no symbol of several bytes does, whether the
table has it or not. -/
theorem At.consume_eq {symbols : SymbolTable} (h : l.At symbols text) (hs : skipText text = some start)
    {c : Char} (hc : c ∈ punctuation) :
    ∃ l', l'.At symbols start ∧ Lexer.consume c l =
      if start.head? = some c ∧ ((symbols.all.longestIn? start).all fun s => s.utf8ByteSize ≤ 1) = true then
        (.ok true, l'.pastByte)
      else (.ok false, l') := by
  rw [Lexer.consume, consumeByte]
  obtain ⟨l', hat, heq⟩ := h.advance_bind hs _
  refine ⟨l', hat, heq.trans ?_⟩
  have hnext : l'.nextByte? = some ((String.utf8EncodeChar c).headD 0) ↔ start.head? = some c := by
    rw [nextByte?_eq, upcoming, hat.split, hat.rest, List.nil_append, head?_bytes_punctuation hc]
  simp only [Lexing.bind_apply, Lexing.get_apply, hnext, hat.readable, hat.symbols]
  split <;> rfl

/-- A built-in punctuation character is taken exactly where it is the longest symbol. -/
theorem At.consume (h : l.At .builtIn text) (hs : skipText text = some start) {c : Char}
    (hc : c ∈ punctuation) :
    ∃ l', Lexer.consume c l = (.ok (decide (symbol? start = some c.toString)), l') ∧
      l'.At .builtIn (if symbol? start = some c.toString then start.drop 1 else start) := by
  obtain ⟨l', hat, heq⟩ := h.consume_eq hs hc
  have hcond : (start.head? = some c ∧
      ((SymbolTable.builtIn.all.longestIn? start).all fun s => s.utf8ByteSize ≤ 1) = true) ↔
        symbol? start = some c.toString := (symbol?_punctuation hc).symm
  simp only [hcond] at heq
  rw [heq]
  by_cases hsymbol : symbol? start = some c.toString
  · obtain ⟨rest, rfl⟩ := List.head?_eq_some_iff.1 (hcond.2 hsymbol).1
    rw [if_pos hsymbol, if_pos hsymbol, decide_eq_true hsymbol]
    exact ⟨l'.pastByte, rfl, hat.pastByte hc⟩
  · rw [if_neg hsymbol, if_neg hsymbol, decide_eq_false hsymbol]
    exact ⟨l', rfl, hat⟩

theorem At.pastSymbol {symbols : SymbolTable} (h : l.At symbols start) (s : String) (interner : Interner) :
    At { l.pastSymbol s with interner } symbols (start.drop s.length) :=
  ⟨h.split, h.symbols, by simp [Lexer.pastSymbol, past, h.rest]⟩

/-- A symbol is taken for a group where the longest one of the group is the longest one of all. -/
theorem At.consumeSymbol?_eq {symbols : SymbolTable} (h : l.At symbols text)
    (hs : skipText text = some start) (g : OperatorGroup) :
    (∃ s name l', (symbols.group? g.name).bind (·.longestIn? start) = some s ∧
        symbols.all.longestIn? start = some s ∧ name.text = s ∧
          Lexer.consumeSymbol? g l = (.ok (some name), l') ∧ l'.At symbols (start.drop s.length)) ∨
      ∃ l', (start = [] ∨ ∀ s, (symbols.group? g.name).bind (·.longestIn? start) = some s →
          symbols.all.longestIn? start ≠ some s) ∧
        Lexer.consumeSymbol? g l = (.ok none, l') ∧ l'.At symbols start := by
  rw [Lexer.consumeSymbol?]
  obtain ⟨l', hat, heq⟩ := h.advance_bind hs _
  rw [heq]
  simp only [Lexing.bind_apply, Lexing.get_apply, hat.readable, hat.symbols]
  cases start with
  | nil => exact .inr ⟨l', .inl rfl, rfl, hat⟩
  | cons c after =>
    simp only [List.isEmpty_cons, Bool.false_eq_true, if_false]
    cases hgroup : (symbols.group? g.name).bind (·.longestIn? (c :: after)) with
    | none => exact .inr ⟨l', .inr nofun, rfl, hat⟩
    | some s =>
      by_cases hlong : symbols.all.longestIn? (c :: after) = some s
      · simp only [if_pos hlong, Lexing.bind_apply, Lexing.set_apply, Lexing.pure_apply]
        exact .inl ⟨s, _, _, rfl, hlong, Interner.text_intern _ _, rfl, hat.pastSymbol s _⟩
      · simp only [if_neg hlong, Lexing.pure_apply]
        refine .inr ⟨l', .inr ?_, rfl, hat⟩
        rintro _ ⟨⟩
        exact hlong

/-- The longest built-in symbol is taken for a group that it belongs to, and no other symbol. -/
theorem At.consumeSymbol? (h : l.At .builtIn text) (hs : skipText text = some start)
    (g : OperatorGroup) :
    (∃ s name l', symbol? start = some s ∧ s ∈ g.builtIn ∧ name.text = s ∧
        Lexer.consumeSymbol? g l = (.ok (some name), l') ∧ l'.At .builtIn (start.drop s.length)) ∨
      ∃ l', (∀ s, symbol? start = some s → s ∉ g.builtIn) ∧
        Lexer.consumeSymbol? g l = (.ok none, l') ∧ l'.At .builtIn start := by
  rcases h.consumeSymbol?_eq hs g with ⟨s, name, l', hgroup, hlong, hname, heq, hat⟩ | ⟨l', hnone, heq, hat⟩
  · rw [SymbolTable.group?_builtIn, Option.bind_some] at hgroup
    have hin := (Matcher.mem_symbols_ofSymbols _ s).1 (Matcher.of_longestIn? hgroup).1
    exact .inl ⟨s, name, l', hlong, hin.1, hname, heq, hat⟩
  · rw [SymbolTable.group?_builtIn, Option.bind_some] at hnone
    refine .inr ⟨l', fun s hsymbol hin => ?_, heq, hat⟩
    rcases hnone with rfl | hnone
    · rw [symbol?_nil] at hsymbol
      cases hsymbol
    · exact hnone s (longestIn?_group hin hsymbol) hsymbol

/-- A symbol asked for by its text is taken where it is the longest symbol. -/
theorem At.consumeText_eq {definitions : List (String × List String)} (h : l.At (.ofGroups definitions) text)
    (hs : skipText text = some start) (s : String) :
    ∃ l', Lexer.consumeText s l =
        (.ok (decide ((SymbolTable.ofGroups definitions).all.longestIn? start = some s)), l') ∧
      l'.At (.ofGroups definitions)
        (if (SymbolTable.ofGroups definitions).all.longestIn? start = some s then start.drop s.length
          else start) := by
  rw [Lexer.consumeText]
  obtain ⟨l', hat, heq⟩ := h.advance_bind hs _
  rw [heq]
  have hcond : (!l'.readable.isEmpty && l'.symbols.all.longestIn? l'.readable = some s) =
      decide ((SymbolTable.ofGroups definitions).all.longestIn? start = some s) := by
    rw [hat.readable, hat.symbols]
    cases start with
    | nil => simp [SymbolTable.longestIn?_nil]
    | cons c after => rfl
  simp only [Lexing.bind_apply, Lexing.get_apply, hcond]
  by_cases hsymbol : (SymbolTable.ofGroups definitions).all.longestIn? start = some s
  · simp only [hsymbol, decide_true, if_true, Lexing.bind_apply, Lexing.set_apply, Lexing.pure_apply]
    exact ⟨_, rfl, hat.pastSymbol s l'.interner⟩
  · simp only [hsymbol, decide_false, if_false, Lexing.pure_apply, Bool.false_eq_true]
    exact ⟨l', rfl, hat⟩

theorem At.consumeText (h : l.At .builtIn text) (hs : skipText text = some start) (s : String) :
    ∃ l', Lexer.consumeText s l = (.ok (decide (symbol? start = some s)), l') ∧
      l'.At .builtIn (if symbol? start = some s then start.drop s.length else start) :=
  h.consumeText_eq hs s

theorem At.take {symbols : SymbolTable} (h : l.At symbols text) (kind : TokenKind)
    (chars rest : List Char) :
    ∃ token l', Lexer.take kind chars rest l = (.ok token, l') ∧
      token.piece = ⟨kind, String.ofList chars⟩ ∧ l'.At symbols rest := by
  cases kind <;> exact ⟨_, _, rfl, rfl, h.split, h.symbols, rfl⟩

/-- Where a lexeme comes next, it is taken; only a string moves the mark before. -/
theorem At.nextToken?_of_lexeme? {symbols : SymbolTable} {p : Piece} {rest : List Char}
    (h : l.At symbols text) (hs : skipText text = some start)
    (hl : lexeme? symbols.all start = some (p, rest)) :
    ∃ l' mark, l'.At symbols start ∧ Lexer.skip l = (.ok (), l') ∧
      Lexer.nextToken? l = (some <$> Lexer.take p.kind p.text.toList rest) { l' with mark } := by
  rcases h.skip with ⟨start', l', hs', hskip, hat⟩ | ⟨e, l', hs', -⟩
  · rw [hs] at hs'
    obtain rfl := Option.some.inj hs'
    rw [Lexer.nextToken?, Lexing.bind_apply, advance_eq_skip h, hskip]
    simp only [Lexing.bind_apply, Lexing.get_apply, hat.readable, hat.rest]
    unfold lexeme? at hl
    split at hl
    · cases hl
    rename_i c after
    have htakes {kind : TokenKind} {chars more : List Char}
        (hpiece : some (Piece.mk kind (String.ofList chars), more) = some (p, rest)) :
        (some <$> Lexer.take kind chars more) l' =
          (some <$> Lexer.take p.kind p.text.toList rest) { l' with mark := l'.mark } := by
      obtain ⟨rfl, rfl⟩ := Prod.mk.inj (Option.some.inj hpiece)
      rw [String.toList_ofList]
    dsimp only at hl ⊢
    by_cases hzero : c = '0'
    · rw [if_pos hzero] at hl
      rw [if_pos hzero]
      exact ⟨l', l'.mark, hat, rfl, htakes hl⟩
    rw [if_neg hzero] at hl ⊢
    by_cases hdecimal : (c.isDigit || (c = '.' && after.head?.any Char.isDigit)) = true
    · rw [if_pos hdecimal] at hl
      rw [if_pos hdecimal]
      exact ⟨l', l'.mark, hat, rfl, htakes hl⟩
    rw [if_neg hdecimal] at hl ⊢
    by_cases hident : Text.isIdentStart c = true
    · rw [if_pos hident] at hl
      rw [if_pos hident]
      exact ⟨l', l'.mark, hat, rfl, htakes hl⟩
    rw [if_neg hident] at hl ⊢
    by_cases hquote : Text.isQuote c = true
    · rw [if_pos hquote] at hl ⊢
      simp only [Lexing.map_apply, takeString, Lexing.bind_apply, Lexing.get_apply, Lexing.set_apply]
      generalize stringTail c after = scanned at hl
      obtain ⟨tail, behind, ending⟩ := scanned
      cases ending with
      | closed =>
        obtain ⟨rfl, rfl⟩ := Prod.mk.inj (Option.some.inj hl)
        refine ⟨l', l'.mark.through (l'.position + c.utf8Size) tail, hat, rfl, ?_⟩
        rw [Piece.text_string, String.toList_ofList]
        rfl
      | unterminated => cases hl
    · rw [if_neg hquote] at hl ⊢
      obtain ⟨symbol, hlong, heq⟩ := Option.map_eq_some_iff.1 hl
      obtain ⟨rfl, rfl⟩ := Prod.mk.inj heq
      have htake : takeSymbol c l' =
          Lexer.take .symbol symbol.toList ((c :: after).drop symbol.length) l' := by
        simp only [takeSymbol, Lexing.bind_apply, Lexing.get_apply, hat.rest, hat.symbols, hlong]
      refine ⟨l', l'.mark, hat, rfl, ?_⟩
      rw [Lexing.map_apply, Lexing.map_apply, htake]
      rfl
  · rw [hs] at hs'
    cases hs'

/-- The next token where a lexeme comes next. -/
theorem At.nextToken?_some {symbols : SymbolTable} {p : Piece} {rest : List Char} (h : l.At symbols text)
    (hs : skipText text = some start) (hl : lexeme? symbols.all start = some (p, rest)) :
    ∃ token l', token.piece = p ∧ Lexer.nextToken? l = (.ok (some token), l') ∧ l'.At symbols rest := by
  obtain ⟨l₁, mark, hat, -, hnext⟩ := h.nextToken?_of_lexeme? hs hl
  have hmarked : At { l₁ with mark } symbols start := ⟨hat.split, hat.symbols, hat.rest⟩
  obtain ⟨token, l', htake, hpiece, hat'⟩ := hmarked.take p.kind p.text.toList rest
  rw [String.ofList_toList] at hpiece
  rw [hnext, Lexing.map_apply, htake]
  exact ⟨token, l', hpiece, rfl, hat'⟩

/-- The next token is the lexeme at the start of the text. -/
theorem At.nextToken? {symbols : SymbolTable} (h : l.At symbols text)
    (hs : skipText text = some start) :
    (∃ l', start = [] ∧ Lexer.nextToken? l = (.ok none, l') ∧ l'.At symbols start) ∨
      (∃ p rest token l', lexeme? symbols.all start = some (p, rest) ∧ token.piece = p ∧
        Lexer.nextToken? l = (.ok (some token), l') ∧ l'.At symbols rest) ∨
      ∃ e l', start ≠ [] ∧ lexeme? symbols.all start = none ∧
        Lexer.nextToken? l = (.error e, l') := by
  cases hl : lexeme? symbols.all start with
  | some found =>
    obtain ⟨p, rest⟩ := found
    obtain ⟨token, l', hpiece, hnext, hat⟩ := h.nextToken?_some hs hl
    exact .inr (.inl ⟨p, rest, token, l', rfl, hpiece, hnext, hat⟩)
  | none =>
    rw [Lexer.nextToken?]
    obtain ⟨l', hat, heq⟩ := h.advance_bind hs _
    rw [heq]
    simp only [Lexing.bind_apply, Lexing.get_apply, hat.readable, hat.rest]
    unfold lexeme? at hl
    split at hl
    · exact .inl ⟨l', rfl, rfl, hat⟩
    refine .inr (.inr ?_)
    split at hl
    · cases hl
    split at hl
    · cases hl
    split at hl
    · cases hl
    rename_i hzero hdecimal hident
    simp only [if_neg hzero, if_neg hdecimal, if_neg hident]
    split at hl
    · rename_i hquote
      rw [if_pos hquote]
      simp only [Lexing.map_apply, takeString, Lexing.bind_apply, Lexing.get_apply, Lexing.set_apply]
      split at hl
      · cases hl
      · rename_i hscanned
        rw [hscanned]
        exact ⟨_, _, List.cons_ne_nil _ _, trivial, rfl⟩
    · rename_i hquote
      simp only [if_neg hquote, Lexing.map_apply, takeSymbol, Lexing.bind_apply, Lexing.get_apply, hat.rest,
        hat.symbols, Option.map_eq_none_iff.1 hl]
      exact ⟨_, _, List.cons_ne_nil _ _, trivial, rfl⟩

/-- An identifier is taken where one comes next. -/
theorem At.nextIdentifier? {symbols : SymbolTable} (h : l.At symbols text) (hs : skipText text = some start) :
    (∃ c after token l', start = c :: after ∧ Text.isIdentStart c = true ∧
        token.text = String.ofList (identifier start).1 ∧
        Lexer.nextIdentifier? l = (.ok (some token), l') ∧ l'.At symbols (identifier start).2) ∨
      ∃ l', (∀ c after, start = c :: after → Text.isIdentStart c = false) ∧
        Lexer.nextIdentifier? l = (.ok none, l') ∧ l'.At symbols start := by
  rw [Lexer.nextIdentifier?]
  obtain ⟨l', hat, heq⟩ := h.advance_bind hs _
  rw [heq]
  simp only [Lexing.bind_apply, Lexing.get_apply, hat.readable, hat.rest]
  cases start with
  | nil => exact .inr ⟨l', nofun, rfl, hat⟩
  | cons c after =>
    by_cases hident : Text.isIdentStart c = true
    · obtain ⟨token, l'', htake, hpiece, hat'⟩ := hat.take .identifier (identifier (c :: after)).1
        (identifier (c :: after)).2
      refine .inl ⟨c, after, token, l'', rfl, hident, congrArg Piece.text hpiece, ?_, hat'⟩
      simp only [if_pos hident, Lexing.map_apply, htake]
    · simp only [if_neg hident]
      refine .inr ⟨l', ?_, rfl, hat⟩
      intro c' after' heq'
      obtain ⟨rfl, -⟩ := List.cons.inj heq'
      exact Bool.eq_false_iff.2 hident

theorem At.peek? {symbols : SymbolTable} (h : l.At symbols text) (hs : skipText text = some start) :
    ∃ l', Lexer.peek? l = (.ok start.head?, l') ∧ l'.At symbols start := by
  rw [Lexer.peek?]
  obtain ⟨l', hat, heq⟩ := h.advance_bind hs _
  rw [heq]
  simp only [Lexing.bind_apply, Lexing.get_apply, hat.readable]
  exact ⟨l', rfl, hat⟩

/-- Nothing remains exactly at the end of the text. -/
theorem At.hasRemaining {symbols : SymbolTable} (h : l.At symbols text) (hs : skipText text = some start) :
    ∃ l', Lexer.hasRemaining l = (.ok (!start.isEmpty), l') ∧ l'.At symbols start := by
  rw [Lexer.hasRemaining, peekByte?, bind_assoc]
  obtain ⟨l', hat, heq⟩ := h.advance_bind hs _
  rw [heq]
  have hnext : l'.nextByte?.isSome = !start.isEmpty := by
    rw [nextByte?_eq, upcoming, hat.split, hat.rest, List.nil_append]
    cases start with
    | nil => rfl
    | cons c after =>
      have := Matcher.length_le_length_bytes (c :: after)
      cases hb : Matcher.bytes (c :: after) with
      | nil => simp [hb] at this
      | cons b more => rfl
  simp only [Lexing.bind_apply, Lexing.get_apply, Lexing.pure_apply, hnext]
  exact ⟨l', rfl, hat⟩

/-! ### Whole sources -/

theorem tokensWithin_succ_of_token {l' : Lexer} {token : Token} (fuel : Nat)
    (h : Lexer.nextToken? l = (.ok (some token), l')) :
    tokensWithin (fuel + 1) l =
      (token :: (tokensWithin fuel l').1, (tokensWithin fuel l').2) := by
  have hrun : Lexer.nextToken?.run l = (.ok (some token), l') := h
  rw [tokensWithin, hrun]

theorem tokensWithin_succ_of_end {l' : Lexer} (fuel : Nat)
    (h : Lexer.nextToken? l = (.ok none, l')) : tokensWithin (fuel + 1) l = ([], none) := by
  have hrun : Lexer.nextToken?.run l = (.ok none, l') := h
  rw [tokensWithin, hrun]

theorem tokensWithin_succ_of_fault {l' : Lexer} {e : LexicalError} (fuel : Nat)
    (h : Lexer.nextToken? l = (.error e, l')) : tokensWithin (fuel + 1) l = ([], some e) := by
  have hrun : Lexer.nextToken?.run l = (.error e, l') := h
  rw [tokensWithin, hrun]

theorem At.nextToken?_unclosed {symbols : SymbolTable} (h : l.At symbols text) (hs : skipText text = none) :
    ∃ e l', Lexer.nextToken? l = (.error e, l') :=
  h.advance_bind_unclosed hs _

section
variable {definitions : List (String × List String)}

/-- The tokens of a lexer that has as much fuel as text are the pieces that are read. -/
theorem At.reads_of_tokensWithin (h : l.At (.ofGroups definitions) text) {fuel : Nat}
    (hfuel : text.length < fuel) {tokens : List Token} (ht : tokensWithin fuel l = (tokens, none)) :
    Reads (SymbolTable.ofGroups definitions).all text (tokens.map Token.piece) := by
  induction fuel generalizing l text tokens with
  | zero => exact absurd hfuel (Nat.not_lt_zero _)
  | succ fuel ih =>
    cases hs : skipText text with
    | none =>
      obtain ⟨e, l', hnext⟩ := h.nextToken?_unclosed hs
      rw [tokensWithin_succ_of_fault fuel hnext] at ht
      cases ht
    | some start =>
      rcases h.nextToken? hs with ⟨l', rfl, hnext, -⟩ | ⟨p, rest, token, l', hl, hp, hnext, hat⟩ |
        ⟨e, l', -, -, hnext⟩
      · rw [tokensWithin_succ_of_end fuel hnext] at ht
        obtain ⟨rfl, -⟩ := Prod.mk.inj ht
        exact .done hs
      · rw [tokensWithin_succ_of_token fuel hnext] at ht
        obtain ⟨rfl, hfault⟩ := Prod.mk.inj ht
        have hlt := length_lt_of_lexeme? hl
        have hle := length_le_of_skipText hs
        rw [List.map_cons, hp]
        exact .next hs hl (ih hat (by omega) (Prod.ext rfl hfault))
      · rw [tokensWithin_succ_of_fault fuel hnext] at ht
        cases ht

theorem At.tokensWithin_of_reads (h : l.At (.ofGroups definitions) text) {fuel : Nat}
    (hfuel : text.length < fuel) {ps : List Piece}
    (hr : Reads (SymbolTable.ofGroups definitions).all text ps) :
    ∃ tokens, tokensWithin fuel l = (tokens, none) ∧ tokens.map Token.piece = ps := by
  induction hr generalizing l fuel with
  | @done text hs =>
    cases fuel with
    | zero => exact absurd hfuel (Nat.not_lt_zero _)
    | succ fuel =>
      rcases h.nextToken? hs with ⟨l', -, hnext, -⟩ | ⟨p, rest, token, l', hl, -⟩ | ⟨e, l', hne, -⟩
      · exact ⟨[], tokensWithin_succ_of_end fuel hnext, rfl⟩
      · cases hl
      · exact absurd rfl hne
  | @next text start rest p ps hs hl _ ih =>
    cases fuel with
    | zero => exact absurd hfuel (Nat.not_lt_zero _)
    | succ fuel =>
      have hlt := length_lt_of_lexeme? hl
      have hle := length_le_of_skipText hs
      have hmore : rest.length < fuel := by omega
      obtain ⟨token, l', hp, hnext, hat⟩ := h.nextToken?_some hs hl
      obtain ⟨tokens, ht, hps⟩ := ih hat hmore
      refine ⟨token :: tokens, ?_, by rw [List.map_cons, hp, hps]⟩
      rw [tokensWithin_succ_of_token fuel hnext, ht]

end

end Lexer

/-- A source tokenizes without a fault exactly when it is read to its end. -/
theorem tokenize_iff_reads {source : String} {definitions : List (String × List String)} {ps : List Piece} :
    (∃ tokens, tokenize source (.ofGroups definitions) = (tokens, none) ∧ tokens.map Token.piece = ps) ↔
      Lexeme.Reads (SymbolTable.ofGroups definitions).all source.toList ps := by
  have hat := Lexer.At.ofSource source (.ofGroups definitions)
  constructor
  · rintro ⟨tokens, ht, rfl⟩
    exact hat.reads_of_tokensWithin (Nat.lt_succ_self _) ht
  · exact fun h => hat.tokensWithin_of_reads (Nat.lt_succ_self _) h

end LatentExpr
