import LatentExpr.Proofs.Grammar.Completeness
import LatentExpr.Proofs.Grammar.WellFormed
import LatentExpr.Proofs.Token.Again
import LatentExpr.Proofs.Token.Filler

/-!
Other spacing of a source. A blank ends every token, symbols included, so the texts of the tokens of a source
are those tokens again with any fillers between them that start with a blank. The parser depends on the tokens
alone: it returns the same tree (`parse_respaced`).
-/
namespace LatentExpr

open Lexeme SymbolTable

/-- The texts of tokens, each with a filler behind it that starts with a blank. Behind the last one there may
be nothing. -/
inductive Spaced : List Piece → List Char → Prop where
  | nil : Spaced [] []
  | last {p : Piece} : Spaced [p] p.text.toList
  | token {p : Piece} {ps : List Piece} {c : Char} {gap text : List Char} (hc : Text.isBlank c = true)
    (hgap : Filler gap) (h : Spaced ps text) : Spaced (p :: ps) (p.text.toList ++ c :: (gap ++ text))

namespace Lexeme
variable {start rest after text : List Char} {s : String} {p : Piece} {ps : List Piece}

/-! ### Before a blank -/

section
variable (hafter : ∀ c ∈ after.head?, Text.isBlank c = true)
include hafter

theorem head?_ne_of_not_isBlank {c : Char} (hc : Text.isBlank c = false) : after.head? ≠ some c := by
  intro hhead
  rw [hafter c hhead] at hc
  cases hc

/-- A built-in symbol is read again before a blank, and no comment starts there. -/
theorem lexeme?_symbol_again (h : lexeme? builtIn.all start = some (.symbol s, rest)) :
    skipText (s.toList ++ after) = some (s.toList ++ after) ∧
      lexeme? builtIn.all (s.toList ++ after) = some (.symbol s, after) := by
  have hne {c : Char} (hc : Text.isBlank c = false) := head?_ne_of_not_isBlank hafter hc
  obtain ⟨hmem, -⟩ := of_symbol? (symbol?_of_lexeme? h).1
  have hsymbol := symbol?_again hmem (hne (c := '=') (by decide))
  refine ⟨skipText_symbol hmem fun _ => ⟨hne (by decide), hne (by decide)⟩, ?_⟩
  by_cases hdot : s = "."
  · -- a point is a symbol only where no digit follows it
    subst hdot
    refine lexeme?_point_of_no_digit ?_ hsymbol
    cases after with
    | nil => rfl
    | cons c more =>
      rw [Bool.eq_false_iff]
      intro hdigit
      exact hne (isBlank_of_isDigit hdigit) rfl
  · have hlexeme := lexeme?_of_symbol? hsymbol hdot
    rwa [← String.length_toList, List.drop_left] at hlexeme

/-- A token is read again before a blank. -/
theorem Reads.before_blank (h : lexeme? builtIn.all start = some (p, rest)) (hreads : Reads builtIn.all after ps) :
    Reads builtIn.all (p.text.toList ++ after) (p :: ps) := by
  obtain ⟨kind, text⟩ := p
  by_cases hkind : kind = .symbol
  · subst hkind
    obtain ⟨hskip, hlexeme⟩ := lexeme?_symbol_again hafter h
    exact .next hskip hlexeme hreads
  · refine .again h hkind (.of_isBlank hafter) (fun hpoint => ?_) hreads
    exact absurd hpoint (head?_ne_of_not_isBlank hafter (by decide))

end

/-! ### A whole source -/

theorem Reads.spaced (hps : ∀ p ∈ ps, p.Lexed) (h : Spaced ps text) : Reads builtIn.all text ps := by
  have hnothing : Reads builtIn.all [] [] := .done (by rw [skipText])
  induction h with
  | nil => exact hnothing
  | @last p =>
    obtain ⟨start, rest, hp⟩ := hps p List.mem_cons_self
    have hlast : Reads builtIn.all (p.text.toList ++ []) [p] :=
      Reads.before_blank (fun _ h => absurd h (Option.not_mem_none _)) hp hnothing
    rwa [List.append_nil] at hlast
  | @token p ps c gap text hc hgap _ ih =>
    obtain ⟨start, rest, hp⟩ := hps p List.mem_cons_self
    have hmore : Reads builtIn.all text ps := ih fun q hq => hps q (List.mem_cons_of_mem p hq)
    have hskip : skipText text = skipText (c :: (gap ++ text)) := by
      rw [skipText_blank hc, hgap.skipText_append]
    refine Reads.before_blank ?_ hp (hmore.of_skipText_eq hskip)
    rintro _ ⟨⟩
    exact hc

end Lexeme

/-- Fillers between the tokens of a source that is read to its end change neither the kinds and texts of its
tokens nor what it is parsed into. -/
theorem parse_respaced {source : String} {tokens : List Token} {lead text : List Char}
    (h : tokenize source .builtIn = (tokens, none)) (hlead : Filler lead)
    (htext : Spaced (tokens.map Token.piece) text) :
    (∃ respaced, tokenize (String.ofList (lead ++ text)) .builtIn = (respaced, none) ∧
        respaced.map Token.piece = tokens.map Token.piece) ∧
      ∀ e, Expr.parse source .builtIn = .ok e ↔ Expr.parse (String.ofList (lead ++ text)) .builtIn = .ok e := by
  have hsource : Reads builtIn.all source.toList (tokens.map Token.piece) := tokenize_iff_reads.1 ⟨tokens, h, rfl⟩
  have hrespaced : Reads builtIn.all (String.ofList (lead ++ text)).toList (tokens.map Token.piece) := by
    rw [String.toList_ofList]
    exact (Reads.spaced hsource.lexed htext).of_skipText_eq (hlead.skipText_append text).symm
  refine ⟨tokenize_iff_reads.2 hrespaced, fun e => ?_⟩
  rw [parse_eq_ok_iff, parse_eq_ok_iff]
  constructor
  · rintro ⟨T, hT, hderives⟩
    obtain rfl := hT.unique hsource
    exact ⟨_, hrespaced, hderives⟩
  · rintro ⟨T, hT, hderives⟩
    obtain rfl := hT.unique hrespaced
    exact ⟨_, hsource, hderives⟩

/-- A comment stands right before the division, and another one behind it. -/
theorem parse_respaced_half :
    Expr.parse "// half\no .\na /* of o *// // by\n2" .builtIn =
      .ok (.binary .multiplicative .div (.member (.identifier "o") "a") (.constant .number "2")) := by
  have hread : (tokenize "o.a/2" .builtIn).2 = none := by decide +kernel
  have hlead : Filler "// half\n".toList := @Filler.line " half".toList [] (by decide) .nil
  have htokens : (tokenize "o.a/2" .builtIn).1.map Token.piece =
      [.identifier "o", .symbol ".", .identifier "a", .symbol "/", .number "2"] := by decide +kernel
  have hof : Filler "/* of o */".toList := @Filler.block " of o ".toList [] (by decide) .nil
  have hby : Filler "// by\n".toList := @Filler.line " by".toList [] (by decide) .nil
  have htext := Spaced.token (p := .identifier "o") (c := ' ') (by decide) .nil <|
    Spaced.token (p := .symbol ".") (c := '\n') (by decide) .nil <|
    Spaced.token (p := .identifier "a") (c := ' ') (by decide) hof <|
    Spaced.token (p := .symbol "/") (c := ' ') (by decide) hby <|
    Spaced.last (p := .number "2")
  rw [← htokens] at htext
  obtain ⟨-, hparse⟩ := parse_respaced (Prod.ext rfl hread) hlead htext
  have hsource : Expr.parse "o.a/2" .builtIn =
      .ok (.binary .multiplicative .div (.member (.identifier "o") "a") (.constant .number "2")) := by cbv
  exact (hparse _).1 hsource

end LatentExpr
