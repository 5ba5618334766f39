import LatentExpr.Engine.Builder

/-!
What configurations can hold. A configuration is `Configured` when requests led to it from the built-in
operators, whatever was asked for and whether it was refused or not. Every symbol of its groups is then a
built-in symbol of the group or a symbol that can be read as an operator (`holds`), and so is every symbol of
the engine that is built (`forall_symbols`).
-/
namespace LatentExpr

namespace EngineBuilder

variable {σ : Type}

/-- The configurations that requests lead to. -/
inductive Configured : EngineBuilder σ → Prop where
  | start : Configured start
  | binary {b : EngineBuilder σ} (h : Configured b) (group : OperatorGroup) (symbol : String)
    (meaning : BinaryMeaning σ) : Configured (b.binary group symbol meaning)
  | unary {b : EngineBuilder σ} (h : Configured b) (symbol : String) (meaning : UnaryMeaning σ) :
    Configured (b.unary symbol meaning)
  | remove {b : EngineBuilder σ} (h : Configured b) (group : OperatorGroup) (symbol : String) :
    Configured (b.remove group symbol)

/-- Every symbol of every group has a property that may depend on the group. -/
def Holds (P : OperatorGroup → String → Prop) (b : EngineBuilder σ) : Prop :=
  ∀ g symbols, (g, symbols) ∈ b.groups → ∀ s ∈ symbols, P g s

variable {P : OperatorGroup → String → Prop} {b : EngineBuilder σ}

theorem Holds.changeGroup (h : b.Holds P) (group : OperatorGroup)
    {change : List String → List String}
    (hc : ∀ symbols, (∀ s ∈ symbols, P group s) → ∀ s ∈ change symbols, P group s) :
    (b.changeGroup group change).Holds P := by
  intro g symbols hmem s hs
  obtain ⟨⟨g', old⟩, hold, heq⟩ := List.mem_map.1 hmem
  obtain ⟨rfl, rfl⟩ := Prod.mk.inj heq
  split at hs
  · rename_i hg
    subst hg
    exact hc old (h g' old hold) s hs
  · exact h g' old hold s hs

theorem Holds.addSymbol (h : b.Holds P) {group : OperatorGroup} {symbol : String}
    (hs : P group symbol) : (b.addSymbol group symbol).Holds P := by
  refine h.changeGroup group fun symbols hall s hmem => ?_
  split at hmem
  · exact hall s hmem
  · rcases List.mem_append.1 hmem with hmem | hmem
    · exact hall s hmem
    · rw [List.mem_singleton.1 hmem]
      exact hs

/-- What holds of the built-in symbols and of every symbol that can be read as an operator holds of every
configuration. -/
theorem Configured.holds (h : b.Configured) (hbuiltIn : ∀ g, ∀ s ∈ g.builtIn, P g s)
    (hvalid : ∀ g s, validSymbol s = true → P g s) : b.Holds P := by
  induction h with
  | start =>
    intro g symbols hmem s hs
    obtain ⟨g', -, heq⟩ := List.mem_map.1 hmem
    obtain ⟨rfl, rfl⟩ := Prod.mk.inj heq
    exact hbuiltIn g' s hs
  | binary h group symbol meaning ih =>
    unfold EngineBuilder.binary
    split
    · exact ih
    split
    · exact ih
    · rename_i hv
      exact ih.addSymbol (hvalid group symbol (by simpa using hv))
  | unary h symbol meaning ih =>
    unfold EngineBuilder.unary
    split
    · exact ih
    · rename_i hv
      exact ih.addSymbol (hvalid .unary symbol (by simpa using hv))
  | remove h group symbol ih =>
    have hremoved := Holds.changeGroup ih group
      fun symbols hall s (hs : s ∈ symbols.filter (· ≠ symbol)) => hall s (List.mem_filter.1 hs).1
    unfold EngineBuilder.remove
    dsimp only
    split
    · exact hremoved
    · split <;> exact hremoved

end EngineBuilder

theorem lookup_cons {α : Type} (name other : String) (a : α) (entries : List (String × α)) :
    ((name, a) :: entries).lookup other = if name = other then some a else entries.lookup other := by
  by_cases h : name = other
  · simp [h]
  · rw [List.lookup_cons, beq_eq_false_iff_ne.2 (Ne.symm h), if_neg h]

namespace SymbolTable

theorem mem_groups_define {name : String} {m : Matcher} {groups : List (String × Matcher)}
    {g : String × Matcher} (h : g ∈ define name m groups) : g.2 = m ∨ g ∈ groups := by
  induction groups with
  | nil =>
    rw [define, List.mem_singleton] at h
    exact .inl (by rw [h])
  | cons first rest ih =>
    unfold define at h
    split at h
    · rcases List.mem_cons.1 h with rfl | h
      · exact .inl rfl
      · exact .inr (List.mem_cons_of_mem _ h)
    · rcases List.mem_cons.1 h with rfl | h
      · exact .inr List.mem_cons_self
      · exact (ih h).imp_right (List.mem_cons_of_mem _)

theorem mem_foldl_define {definitions : List (String × List String)}
    {groups : List (String × Matcher)} {g : String × Matcher}
    (h : g ∈ definitions.foldl (fun gs (name, symbols) => define name (.ofSymbols symbols) gs) groups) :
    g ∈ groups ∨ ∃ d ∈ definitions, g.2 = .ofSymbols d.2 := by
  induction definitions generalizing groups with
  | nil => exact .inl h
  | cons d rest ih =>
    rcases ih h with h | ⟨d', hd', heq⟩
    · exact (mem_groups_define h).symm.imp_right fun heq => ⟨d, List.mem_cons_self, heq⟩
    · exact .inr ⟨d', List.mem_cons_of_mem _ hd', heq⟩

/-- Every symbol of a table was listed in one of its definitions. -/
theorem listed_of_mem_all {definitions : List (String × List String)} {symbol : String}
    (h : symbol ∈ (ofGroups definitions).all.symbols) : ∃ d ∈ definitions, symbol ∈ d.2 := by
  obtain ⟨g, hg, hs⟩ := List.mem_flatMap.1 ((Matcher.mem_symbols_ofSymbols _ symbol).1 h).1
  rcases mem_foldl_define hg with hnil | ⟨d, hd, heq⟩
  · exact absurd hnil List.not_mem_nil
  · rw [heq] at hs
    exact ⟨d, hd, ((Matcher.mem_symbols_ofSymbols _ symbol).1 hs).1⟩

end SymbolTable

/-- What holds of the built-in symbols and of every symbol that can be read as an operator holds of every
symbol of a configured engine. -/
theorem EngineBuilder.Configured.forall_symbols {σ : Type} {b : EngineBuilder σ} (h : b.Configured)
    {P : String → Prop} (hbuiltIn : ∀ g : OperatorGroup, ∀ s ∈ g.builtIn, P s)
    (hvalid : ∀ s, validSymbol s = true → P s) {engine : Engine σ} (hb : b.build = .ok engine) :
    ∀ s ∈ engine.symbols.all.symbols, P s := by
  unfold build at hb
  split at hb
  · cases hb
  obtain rfl := Except.ok.inj hb
  intro s hs
  obtain ⟨d, hd, hmem⟩ := SymbolTable.listed_of_mem_all hs
  obtain ⟨⟨g, symbols⟩, hg, rfl⟩ := List.mem_map.1 hd
  exact h.holds (P := fun _ => P) (fun g => hbuiltIn g) (fun _ => hvalid) g symbols hg s hmem

end LatentExpr
