import LatentExpr.Proofs.Engine.History
import LatentExpr.Proofs.Token.Filler

/-!
How the symbols of an engine are read. A symbol that a configuration accepts begins as no name, no string, no
digit and no comment does, but it may begin with a blank that is no white space or as a number that begins with
a point. It is read as the one token that it is where it does neither (`accepted_tokenizes_iff`).
-/
namespace LatentExpr

open Lexeme

/-! ### The only token of a text -/

namespace Lexeme
variable {symbols : List String} {s : String}

/-- A text is a single symbol where nothing of it is skipped and the symbol is all of it. -/
theorem reads_symbol_iff :
    Reads (.ofSymbols symbols) s.toList [.symbol s] ↔
      skipText s.toList = some s.toList ∧ lexeme? (.ofSymbols symbols) s.toList = some (.symbol s, []) := by
  constructor
  · intro h
    cases h with
    | @next _ start rest _ _ hs hl =>
      obtain ⟨happend, -⟩ := lexeme?_append hl
      have hle := length_le_of_skipText hs
      rw [← happend, Piece.text_symbol, List.length_append] at hle
      obtain rfl : rest = [] := List.length_eq_zero_iff.1 (by omega)
      rw [List.append_nil, Piece.text_symbol] at happend
      exact ⟨happend ▸ hs, happend ▸ hl⟩
  · rintro ⟨hs, hl⟩
    have hnothing : skipText [] = some [] := by rw [skipText]
    exact .next hs hl (.done hnothing)

end Lexeme

theorem Matcher.longestIn?_toList {symbols : List String} {s : String} (hs : s ∈ (ofSymbols symbols).symbols) :
    (ofSymbols symbols).longestIn? s.toList = some s := by
  rcases longestIn?_spec symbols s.toList with ⟨longest, -, hpre, heq, hmax⟩ | ⟨-, hnone⟩
  · have hle := hmax s hs List.prefix_rfl
    rw [heq, String.toList_inj.1 (hpre.eq_of_length (Nat.le_antisymm hpre.length_le hle.length_le))]
  · exact absurd List.prefix_rfl (hnone s hs)

/-! ### Symbols that are accepted -/

namespace EngineBuilder
variable {σ : Type} {b : EngineBuilder σ} {engine : Engine σ} {requests : List (Request σ)}
  {g : OperatorGroup} {symbol : String}

/-- Whether a symbol begins with a blank, or as a number that begins with a point. -/
def misread (symbol : String) : Bool :=
  match symbol.toList with
  | [] => false
  | first :: rest => Text.isBlank first || (first = '.' && rest.head?.any Char.isDigit)

/-- What the first two characters of an accepted symbol are not. -/
theorem of_validSymbol (h : validSymbol symbol = true) :
    ∃ first rest, symbol.toList = first :: rest ∧ beginsSymbol first = true ∧
      (first = '/' → rest.head? ≠ some '/' ∧ rest.head? ≠ some '*') := by
  unfold validSymbol at h
  split at h
  · cases h
  · rename_i first rest hlist
    rw [Bool.and_eq_true, Bool.and_eq_true] at h
    obtain ⟨⟨hfirst, -⟩, hcomment⟩ := h
    refine ⟨first, rest, hlist, hfirst, ?_⟩
    rintro rfl
    simpa using hcomment

/-- The built-in symbols are such as are accepted. -/
theorem validSymbol_builtIn (g : OperatorGroup) : ∀ s ∈ g.builtIn, validSymbol s = true := by
  cases g <;> decide

theorem Configured.validSymbol (h : b.Configured) (hb : b.build = .ok engine) :
    ∀ s ∈ engine.symbols.all.symbols, validSymbol s = true :=
  h.forall_symbols validSymbol_builtIn (fun _ hs => hs) hb

/-- An accepted symbol of a table is the only token of its text, unless it begins as something else. -/
theorem reads_symbol_iff_of_validSymbol {symbols : List String} (hvalid : EngineBuilder.validSymbol symbol = true)
    (hmem : symbol ∈ (Matcher.ofSymbols symbols).symbols) :
    Reads (.ofSymbols symbols) symbol.toList [.symbol symbol] ↔ misread symbol = false := by
  obtain ⟨first, rest, hlist, hfirst, hcomment⟩ := of_validSymbol hvalid
  have hlong := Matcher.longestIn?_toList hmem
  rw [reads_symbol_iff, misread]
  rw [hlist] at hlong ⊢
  rw [Bool.or_eq_false_iff, Bool.and_eq_false_imp]
  constructor
  · rintro ⟨hskip, hlexeme⟩
    refine ⟨isBlank_of_skipText hskip, fun hpoint => ?_⟩
    obtain rfl : first = '.' := of_decide_eq_true hpoint
    rw [Bool.eq_false_iff]
    intro hdigit
    have hdecimal : ('.'.isDigit || ('.' = '.' && rest.head?.any Char.isDigit)) = true := hdigit
    rw [lexeme?_decimal (by decide) hdecimal] at hlexeme
    cases hlexeme
  · rintro ⟨hblank, hpoint⟩
    refine ⟨skipText_of_no_comment hblank hcomment, ?_⟩
    rw [lexeme?_of_beginsSymbol hfirst fun h => hpoint (decide_eq_true h), hlong, Option.map_some, ← hlist,
      ← String.length_toList, List.drop_length]

/-- A symbol that was added to a group of an engine and not removed from there is the only token of its own
text exactly if it begins with no blank and not as a number does. -/
theorem accepted_tokenizes_iff (hb : (configure requests).build = .ok engine)
    (hadded : lastly (Request.lists? g symbol) requests = some true) :
    (∃ token, tokenize symbol engine.symbols = ([token], none) ∧ token.kind = .symbol ∧ token.text = symbol) ↔
      misread symbol = false := by
  have hlists : engine.symbols.Lists g symbol := by
    rw [lists_of_build hb, hadded]
    rfl
  have hconfigured := configured_configure requests
  obtain ⟨-, hengine⟩ := build_eq_ok.1 hb
  have hvalid := hconfigured.validSymbol hb symbol
  rw [hengine] at hlists hvalid ⊢
  have hmem := SymbolTable.mem_all_of_lists hlists
  rw [← reads_symbol_iff_of_validSymbol (hvalid hmem) hmem]
  refine Iff.trans ?_ tokenize_iff_reads
  constructor
  · rintro ⟨token, htokenize, hkind, htext⟩
    exact ⟨[token], htokenize, by rw [List.map_singleton, Token.piece, hkind, htext]; rfl⟩
  · rintro ⟨tokens, htokenize, hpieces⟩
    obtain ⟨token, rfl, hpiece⟩ := List.map_eq_singleton_iff.1 hpieces
    exact ⟨token, htokenize, congrArg Piece.kind hpiece, congrArg Piece.text hpiece⟩

/-- Two operators next to `+`, the second of which begins as a number does. -/
def pointed : List (Request Unit) :=
  [.binary .additive "⊕" fun a _ w => (.ok a, w), .binary .additive ".5" fun a _ w => (.ok a, w)]

def pointedEngine : Engine Unit :=
  ⟨.ofGroups ((configure pointed).groups.map fun (g, symbols) => (g.name, symbols)),
    (configure pointed).operators⟩

theorem accepted_tokenizes_iff_pointed :
    (configure pointed).build = .ok pointedEngine ∧
      (∃ token, tokenize "⊕" pointedEngine.symbols = ([token], none) ∧ token.kind = .symbol ∧
          token.text = "⊕") ∧
        ¬ ∃ token, tokenize ".5" pointedEngine.symbols = ([token], none) ∧ token.kind = .symbol ∧
          token.text = ".5" := by
  have hb : (configure pointed).build = .ok pointedEngine := rfl
  have hplus : _ ↔ misread "⊕" = false := accepted_tokenizes_iff (g := .additive) hb (by decide)
  have hpoint : _ ↔ misread ".5" = false := accepted_tokenizes_iff (g := .additive) hb (by decide)
  exact ⟨hb, hplus.2 (by decide), fun h => absurd (hpoint.1 h) (by decide)⟩

end EngineBuilder

end LatentExpr
