import LatentExpr.Proofs.Grammar.Completeness
import LatentExpr.Proofs.Print.Rederived
import LatentExpr.Proofs.Token.Continued

/-!
Sources inside of sources. A source that is parsed can be put between parentheses, with a line feed before the
closing one in case it ends in a comment, and is then the same operand everywhere: it keeps its tree, and an
operation or an array of such operands has exactly their trees as its parts (`parse_grouped`).
-/
namespace LatentExpr

open Lexeme SymbolTable

/-- A source between parentheses. -/
def grouped (source : String) : String := "(" ++ source ++ "\n)"

variable {source left right symbol : String} {e e₁ e₂ : Expr} {text after : List Char} {T U ps : List Piece}

namespace Lexeme

theorem inLines_builtIn : ∀ s ∈ builtIn.all.symbols, '\n' ∉ s.toList := by
  rw [symbols_builtIn]
  exact forall_mem_of_all (by decide)

theorem Reads.grouped (h : Reads builtIn.all source.toList T) (hafter : Reads builtIn.all after ps) :
    Reads builtIn.all ((grouped source).toList ++ after) (.punct '(' :: (T ++ .punct ')' :: ps)) := by
  have htext : (LatentExpr.grouped source).toList ++ after = '(' :: (source.toList ++ '\n' :: ')' :: after) := by
    simp [LatentExpr.grouped]
  rw [htext]
  refine .punct (by decide) (by decide) (Reads.continued inLines_builtIn h ?_)
  exact .punct (by decide) (by decide) hafter

theorem reads_nil {m : Matcher} : Reads m [] [] := .done (by rw [skipText])

end Lexeme

/-- The tokens of a source between parentheses are read and fit in every place. -/
structure Operand (source : String) (e : Expr) (T : List Piece) : Prop where
  reads : ∀ {after ps}, Reads builtIn.all after ps → Reads builtIn.all ((grouped source).toList ++ after) (T ++ ps)
  fits : ∀ least ≤ 10, e.Fits false T least
  nonempty : T ≠ []

theorem operand_of_parse (h : Expr.parse source .builtIn = .ok e) : ∃ T, Operand source e T := by
  obtain ⟨T, hreads, hderives⟩ := parse_eq_ok_iff.1 h
  refine ⟨.punct '(' :: (T ++ [.punct ')']), fun {after ps} hafter => ?_, fun least hmax => ?_,
    List.cons_ne_nil _ _⟩
  · have hgrouped := Reads.grouped hreads hafter
    rwa [List.cons_append, List.append_assoc]
  · exact Expr.Fits.of_primary (.group hderives) hmax

theorem symbol_of_level {level : Level} (hs : symbol ∈ level.symbols) :
    symbol ∈ builtIn.all.symbols ∧ symbol ≠ "." := by
  have hall : ∀ level ∈ Level.all, ∀ s ∈ level.symbols, s ∈ builtIn.all.symbols ∧ s ≠ "." := by
    rw [symbols_builtIn]
    decide
  have hlevel : level ∈ Level.all := by
    cases level with
    | logical op => cases op <;> decide
    | binary level => cases level <;> decide
  exact hall level hlevel symbol hs

theorem symbol_of_builtIn {level : BinaryLevel} {op : BinaryOp} (h : op ∈ BinaryOp.builtIn level) :
    op.symbol ∈ level.group.builtIn ∧ BinaryOp.ofSymbol level op.symbol = op := by
  have hall : ∀ level ∈ BinaryLevel.all, ∀ op ∈ BinaryOp.builtIn level,
      op.symbol ∈ level.group.builtIn ∧ BinaryOp.ofSymbol level op.symbol = op := by decide
  have hlevel : level ∈ BinaryLevel.all := by cases level <;> decide
  exact hall level hlevel op h

namespace Operand

theorem alone (h : Operand source e T) : Expr.parse (grouped source) .builtIn = .ok e := by
  have hreads := h.reads reads_nil
  rw [List.append_nil, List.append_nil] at hreads
  exact parse_eq_ok_iff.2 ⟨T, hreads, h.fits 0 (Nat.zero_le _)⟩

/-- Two operands of a built-in operator. -/
theorem joined (hl : Operand left e₁ T) (hr : Operand right e₂ U) (level : Level) (hs : symbol ∈ level.symbols) :
    Expr.parse (grouped left ++ " " ++ symbol ++ " " ++ grouped right) .builtIn =
      .ok (level.join symbol e₁ e₂) := by
  have hlevel := level.precedence_lt
  obtain ⟨hmem, hdot⟩ := symbol_of_level hs
  have hfits := Expr.Fits.join hs (hl.fits level.precedence (by omega)) (hr.fits _ hlevel)
  have hwhole : (level.join symbol e₁ e₂).Fits false (T ++ .symbol symbol :: U) 0 :=
    hfits.mono (Nat.zero_le _) (by omega)
  refine parse_eq_ok_iff.2 ⟨T ++ .symbol symbol :: U, ?_, hwhole⟩
  have hright := hr.reads reads_nil
  rw [List.append_nil, List.append_nil] at hright
  have hblank : (' ' :: (grouped right).toList).head? ≠ some '=' :=
    fun heq => absurd (Option.some.inj heq) (by decide)
  have hsymbol := Reads.symbol hmem hdot (fun _ => rfl) hblank hright.space
  have hreads := hl.reads hsymbol.space
  simpa using hreads

end Operand

/-- The members of a list between commas are the slots of an array. -/
theorem slots_of_parse {sources : List String} {es : List Expr}
    (h : List.Forall₂ (fun source e => Expr.parse source .builtIn = .ok e) sources es) (hne : sources ≠ []) :
    ∃ T, T ≠ [] ∧ Derives true (.slots es) false T ∧ ∀ {after ps}, Reads builtIn.all after ps →
      Reads builtIn.all ((",".intercalate (sources.map grouped)).toList ++ after) (T ++ ps) := by
  induction h with
  | nil => exact absurd rfl hne
  | @cons source e sources es hparse hrest ih =>
    obtain ⟨T, hT⟩ := operand_of_parse hparse
    have hslot : Derives true (.slot e) false T := .filledSlot (hT.fits 1 (by decide))
    cases hrest with
    | nil => exact ⟨T, hT.nonempty, .lastSlot hslot, fun hafter => by simpa using hT.reads hafter⟩
    | cons =>
      obtain ⟨U, -, hslots, hU⟩ := ih (List.cons_ne_nil _ _)
      refine ⟨T ++ .punct ',' :: U, by simp, .moreSlots hslot (fun _ => rfl) hslots, fun {after ps} hafter => ?_⟩
      have hreads := hT.reads (.punct (c := ',') (by decide) (by decide) (hU hafter))
      rw [List.append_assoc, List.map_cons, List.map_cons, String.intercalate_cons_cons]
      simpa using hreads

/-- Between parentheses a source that is parsed keeps its tree; with a built-in operator between them, two such
sources are parsed into exactly its node over their trees, and with commas between them and brackets around
them, one or more into exactly the array of their trees. -/
theorem parse_grouped :
    (∀ source e, Expr.parse source .builtIn = .ok e → Expr.parse (grouped source) .builtIn = .ok e) ∧
    (∀ left right e₁ e₂, Expr.parse left .builtIn = .ok e₁ → Expr.parse right .builtIn = .ok e₂ →
      (∀ op : LogicalOp, Expr.parse (grouped left ++ " " ++ op.symbol ++ " " ++ grouped right) .builtIn =
        .ok (.logical op e₁ e₂)) ∧
      ∀ level, ∀ op ∈ BinaryOp.builtIn level,
        Expr.parse (grouped left ++ " " ++ op.symbol ++ " " ++ grouped right) .builtIn =
          .ok (.binary level op e₁ e₂)) ∧
    ∀ sources es, sources ≠ [] →
      List.Forall₂ (fun source e => Expr.parse source .builtIn = .ok e) sources es →
        Expr.parse ("[" ++ ",".intercalate (sources.map grouped) ++ "]") .builtIn = .ok (.array es) := by
  refine ⟨fun source e h => ?_, fun left right e₁ e₂ hleft hright => ?_, fun sources es hne h => ?_⟩
  · obtain ⟨T, hT⟩ := operand_of_parse h
    exact hT.alone
  · obtain ⟨T, hT⟩ := operand_of_parse hleft
    obtain ⟨U, hU⟩ := operand_of_parse hright
    refine ⟨fun op => hT.joined hU (.logical op) (List.mem_singleton_self _), fun level op hop => ?_⟩
    obtain ⟨hmem, hof⟩ := symbol_of_builtIn hop
    have hjoined := hT.joined hU (.binary level) hmem
    rwa [Level.join, hof] at hjoined
  · obtain ⟨T, hT, hslots, hreads⟩ := slots_of_parse h hne
    refine parse_eq_ok_iff.2 ⟨.punct '[' :: (T ++ [.punct ']']), ?_, ?_⟩
    · have hclose := Reads.punct (c := ']') (by decide) (by decide) reads_nil
      have hopen := Reads.punct (c := '[') (by decide) (by decide) (hreads hclose)
      simpa using hopen
    · have harray : Expr.Fits (.array es) false (.punct '[' :: (T ++ [.punct ']'])) 0 :=
        .of_primary (.array (.someElements hslots hT)) (Nat.zero_le _)
      exact harray

/-- A sequence, a ternary that would go on, a number that ends in a point, and comments at the ends. -/
theorem parse_grouped_open :
    Expr.parse (grouped "a, b // c") .builtIn = .ok (.comma [.identifier "a", .identifier "b"]) ∧
      Expr.parse (grouped "a, b // c" ++ " " ++ BinaryOp.sub.symbol ++ " " ++ grouped "1.") .builtIn =
        .ok (.binary .additive .sub (.comma [.identifier "a", .identifier "b"]) (.constant .number "1.")) ∧
      Expr.parse ("[" ++ ",".intercalate (["a, b // c", "1."].map grouped) ++ "]") .builtIn =
        .ok (.array [.comma [.identifier "a", .identifier "b"], .constant .number "1."]) := by
  have hleft : Expr.parse "a, b // c" .builtIn = .ok (.comma [.identifier "a", .identifier "b"]) := by cbv
  have hright : Expr.parse "1." .builtIn = .ok (.constant .number "1.") := by cbv
  obtain ⟨halone, hjoined, hlisted⟩ := parse_grouped
  refine ⟨halone _ _ hleft, (hjoined _ _ _ _ hleft hright).2 .additive .sub (by decide), ?_⟩
  exact hlisted _ _ (List.cons_ne_nil _ _) (.cons hleft (.cons hright .nil))

end LatentExpr
