import LatentExpr.Proofs.Engine.Accepted
import LatentExpr.Proofs.Token.Cuts

/-!
What an engine parses and what its table tokenizes. The parser takes off a source what the table reads there, up
to punctuation that was removed from the table and up to an operator that begins with the point of a number
(`tokenize_of_parse`). An engine with neither parses only what its table tokenizes.
-/
namespace LatentExpr

open Lexeme

namespace EngineBuilder
variable {σ : Type} {b : EngineBuilder σ} {engine : Engine σ} {requests : List (Request σ)} {source : String}
  {e : Expr}

/-- Neither names nor strings nor digits begin as a symbol of a configured engine does. -/
theorem Configured.beginsSymbol (h : b.Configured) (hb : b.build = .ok engine) :
    ∀ s ∈ engine.symbols.all.symbols, s.toList.head?.all Lexeme.beginsSymbol = true := by
  intro s hs
  obtain ⟨first, rest, hlist, hfirst, -⟩ := of_validSymbol (h.validSymbol hb s hs)
  rw [hlist]
  exact hfirst

/-- A parser with the table of a configured engine only takes off what can be taken off. -/
theorem Configured.keeping (h : b.Configured) (hb : b.build = .ok engine) (source : List Char) :
    Parsing.Keeping engine.symbols fun l => l.CutOff engine.symbols source := by
  have hsymbols := h.beginsSymbol hb
  obtain ⟨-, rfl⟩ := build_eq_ok.1 hb
  exact
    { table := fun hl => hl.standing.symbols
      advance := fun hl => hl.advance
      peek? := fun hl => hl.peek?
      nextToken? := fun hl => hl.nextToken?
      consumeSymbol? := fun g hg l l' answer hl => hl.consumeSymbol? hsymbols hg
      consumeText := fun op l l' answer hl => hl.consumeText
      consume := fun c hc hpoint l l' answer hl hask => by
        -- a point is asked for with the name behind it, in `point`
        cases answer with
        | true => exact hl.consume_true hc hask fun h => absurd h hpoint
        | false => exact hl.consume_false hc hask
      no_point := fun hl => hl.consume_false (by decide)
      point := fun hl hpoint hname => hl.point hpoint hname }

/-- A source that is parsed is cut to its end. -/
theorem Configured.cuts_of_parse (h : b.Configured) (hb : b.build = .ok engine)
    (hparse : Expr.parse source engine.symbols = .ok e) : ∃ cut, Cuts engine.symbols source.toList cut := by
  have hkeeping := h.keeping hb source.toList
  obtain ⟨-, rfl⟩ := build_eq_ok.1 hb
  obtain ⟨-, l, l', hl, hremains⟩ := Expr.of_parse hkeeping (.ofSource source _) hparse
  exact hl.hasRemaining hremains

/-- What an engine parses is cut into what its table reads there, up to bare punctuation, where reading stops,
and up to an operator that is taken where a number is read. So the table tokenizes what the engine parses as
long as it has all punctuation and no operator that opens a number. -/
theorem tokenize_of_parse (hb : (configure requests).build = .ok engine)
    (hparse : Expr.parse source engine.symbols = .ok e) :
    (∃ cut, Cuts engine.symbols source.toList cut ∧
      ReadAs cut ((tokenize source engine.symbols).1.map Token.piece)
        ((tokenize source engine.symbols).2.map (·.fault))) ∧
      ((∀ c ∈ punctuation, c.toString ∈ engine.symbols.all.symbols) →
        (∀ g ≠ .punctuation, ∀ s, engine.symbols.Lists g s → opensNumber s = false) →
          (tokenize source engine.symbols).2 = none) := by
  obtain ⟨cut, hcut⟩ := (configured_configure requests).cuts_of_parse hb hparse
  obtain ⟨-, rfl⟩ := build_eq_ok.1 hb
  have hread := hcut.readAs (.ofSource source _) (Nat.lt_succ_self _)
  refine ⟨⟨cut, hcut, hread⟩, fun hpunctuation hoperators => ?_⟩
  -- with such a table there is nothing to take but tokens
  have hbare : ∀ c, .bare c ∉ cut := by
    intro c hmem
    obtain ⟨start, rest, htakes⟩ := hcut.takesOff_of_mem hmem
    obtain ⟨hc, hlost⟩ := htakes.lost
    exact hlost (hpunctuation c hc)
  have hearly : ∀ s, .early s ∉ cut := by
    intro s hmem
    obtain ⟨start, rest, htakes⟩ := hcut.takesOff_of_mem hmem
    obtain ⟨g, hg, hlists, hopens⟩ := htakes.opensNumber
    rw [hoperators g hg s hlists] at hopens
    cases hopens
  exact Option.map_eq_none_iff.1 (hread.fault_eq_none hbare hearly)

/-- The opening parenthesis is removed. -/
def unopened : List (Request Unit) := [.remove .punctuation "("]

def unopenedEngine : Engine Unit :=
  ⟨.ofGroups ((configure unopened).groups.map fun (g, symbols) => (g.name, symbols)), .empty⟩

/-- Without the opening parenthesis a source is parsed whose first character reading stops at. With the built-in
symbols it is read to its end. -/
theorem tokenize_of_parse_unopened :
    (configure unopened).build = .ok unopenedEngine ∧
      Expr.parse "(1)" unopenedEngine.symbols = .ok (.constant .number "1") ∧
        (∃ cut, Cuts unopenedEngine.symbols "(1)".toList cut ∧
          ReadAs cut [] (some (.unexpectedCharacter '('))) ∧
            (tokenize "(1)" .builtIn).2 = none := by
  have hb : (configure unopened).build = .ok unopenedEngine := rfl
  have hparse : Expr.parse "(1)" unopenedEngine.symbols = .ok (.constant .number "1") := by cbv
  obtain ⟨cut, hcut, hread⟩ := (tokenize_of_parse hb hparse).1
  have hpieces : (tokenize "(1)" unopenedEngine.symbols).1.map Token.piece = [] := by decide +kernel
  have hfault : (tokenize "(1)" unopenedEngine.symbols).2.map (·.fault) = some (.unexpectedCharacter '(') := by
    decide +kernel
  rw [hpieces, hfault] at hread
  have hdefault : (configure []).build = .ok (Engine.default : Engine Unit) := rfl
  have hwhole : Expr.parse "(1)" (Engine.default : Engine Unit).symbols = .ok (.constant .number "1") := by cbv
  have hpunctuation : ∀ c ∈ punctuation, c.toString ∈ SymbolTable.builtIn.all.symbols :=
    fun c hc => SymbolTable.toString_mem hc
  have hoperators : ∀ g ≠ .punctuation, ∀ s, SymbolTable.builtIn.Lists g s → opensNumber s = false := by
    intro g hg s hlists
    have hmem : s ∈ g.builtIn := by simpa [lastly] using (lists_of_build hdefault g).1 hlists
    have hall : ∀ g : OperatorGroup, g ≠ .punctuation → ∀ s ∈ g.builtIn, opensNumber s = false := by
      intro g
      cases g <;> decide
    exact hall g hg s hmem
  exact ⟨hb, hparse, ⟨cut, hcut, hread⟩, (tokenize_of_parse hdefault hwhole).2 hpunctuation hoperators⟩

end EngineBuilder

end LatentExpr
