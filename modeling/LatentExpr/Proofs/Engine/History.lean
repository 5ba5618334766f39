import LatentExpr.Proofs.Engine.Configured
import LatentExpr.Proofs.Eval.Failures

/-!
What the requests that led to an engine tell about its operators. Whether a group lists a symbol is decided by
the last request that adds the symbol there or removes it from there. The meaning of a symbol is kept once for
all groups, so it is decided by the last request that adds the symbol to any binary group or removes it from
any. The two disagree about a symbol that one group lists and that was then removed from another: it is
`Orphaned`, and an engine finds no other operator unsupported (`unsupported_only_orphaned`).
-/
namespace LatentExpr

/-! ### The last word of a history -/

/-- The answer of the last member of a list that has one. -/
def lastly {α β : Type*} (f : α → Option β) (l : List α) : Option β := l.reverse.findSome? f

section Lastly
variable {α β : Type*} {f : α → Option β} {l : List α} {a : α} {b : β}

theorem lastly_concat : lastly f (l ++ [a]) = (f a <|> lastly f l) := by
  rw [lastly, List.reverse_concat, List.findSome?_cons]
  cases f a <;> rfl

theorem getD_lastly_concat : (lastly f (l ++ [a])).getD b = (f a).getD ((lastly f l).getD b) := by
  rw [lastly_concat]
  cases f a <;> rfl

end Lastly

/-! ### Meanings by symbol -/

namespace Operators
variable {α : Type}

theorem lookup_drop (symbol other : String) (entries : List (String × α)) :
    (drop symbol entries).lookup other = if symbol = other then none else entries.lookup other := by
  induction entries with
  | nil => simp [drop]
  | cons entry rest ih =>
    obtain ⟨s, meaning⟩ := entry
    unfold drop at ih ⊢
    by_cases hs : s = symbol
    · subst hs
      rw [List.filter_cons_of_neg (by simp), ih, lookup_cons]
      split <;> rfl
    · rw [List.filter_cons_of_pos (by simpa using hs), lookup_cons, lookup_cons, ih]
      by_cases hother : symbol = other
      · rw [if_neg (hother ▸ hs), if_pos hother, if_pos hother]
      · rw [if_neg hother, if_neg hother]

theorem lookup_put (symbol other : String) (meaning : α) (entries : List (String × α)) :
    (put symbol meaning entries).lookup other =
      if symbol = other then some meaning else entries.lookup other := by
  have hput : put symbol meaning entries = (symbol, meaning) :: drop symbol entries := rfl
  rw [hput, lookup_cons, lookup_drop]
  split <;> rfl

end Operators

namespace EngineBuilder
variable {σ : Type}

/-! ### Requests -/

/-- A request to a configuration. -/
inductive Request (σ : Type) where
  | binary (group : OperatorGroup) (symbol : String) (meaning : BinaryMeaning σ)
  | unary (symbol : String) (meaning : UnaryMeaning σ)
  | remove (group : OperatorGroup) (symbol : String)

def perform (b : EngineBuilder σ) : Request σ → EngineBuilder σ
  | .binary group symbol meaning => b.binary group symbol meaning
  | .unary symbol meaning => b.unary symbol meaning
  | .remove group symbol => b.remove group symbol

/-- The configuration that some requests lead to, made one after the other. -/
def configure (requests : List (Request σ)) : EngineBuilder σ := requests.foldl perform start

theorem configure_concat (requests : List (Request σ)) (r : Request σ) :
    configure (requests ++ [r]) = (configure requests).perform r := by
  simp [configure]

theorem configured_configure (requests : List (Request σ)) : (configure requests).Configured := by
  induction requests using List.reverseRecOn with
  | nil => exact .start
  | append_singleton requests r ih =>
    rw [configure_concat]
    cases r with
    | binary => exact .binary ih _ _ _
    | unary => exact .unary ih _ _
    | remove => exact .remove ih _ _

namespace Request

/-- Whether a request adds a symbol to a group or removes it from there. -/
def lists? (g : OperatorGroup) (s : String) : Request σ → Option Bool
  | .binary group symbol _ => if group = g ∧ symbol = s then some true else none
  | .unary symbol _ => if .unary = g ∧ symbol = s then some true else none
  | .remove group symbol => if group = g ∧ symbol = s then some false else none

/-- Whether a request gives a symbol a meaning as a binary operator or takes that away, whatever the group. -/
def means? (s : String) : Request σ → Option Bool
  | .binary _ symbol _ => if symbol = s then some true else none
  | .unary .. => none
  | .remove group symbol => if takesBinary group = true ∧ symbol = s then some false else none

end Request

/-! ### What a history leads to -/

/-- A configuration that some requests led to: what its groups list and which symbols have meanings. -/
structure Reflects (requests : List (Request σ)) (b : EngineBuilder σ) : Prop where
  listed : ∃ listed : OperatorGroup → List String,
    b.groups = OperatorGroup.all.map (fun g => (g, listed g)) ∧
      ∀ g s, decide (s ∈ listed g) = (lastly (Request.lists? g s) requests).getD (decide (s ∈ g.builtIn))
  binary : ∀ s, (b.operators.binary? s).isSome = (lastly (Request.means? s) requests).getD false
  unary : ∀ s, (b.operators.unary? s).isSome = (lastly (Request.lists? .unary s) requests).getD false

theorem reflects_start : Reflects [] (start : EngineBuilder σ) where
  listed := ⟨OperatorGroup.builtIn, rfl, fun _ _ => rfl⟩
  binary _ := rfl
  unary _ := rfl

variable {b b' : EngineBuilder σ} {requests : List (Request σ)}

/-- One request more, of which is known how it changes a group and the meanings. -/
theorem Reflects.concat (h : Reflects requests b) (r : Request σ) (group : OperatorGroup)
    (change : List String → List String) (hgroups : b'.groups = (b.changeGroup group change).groups)
    (hlists : ∀ symbols g s, decide (s ∈ if g = group then change symbols else symbols) =
      (r.lists? g s).getD (decide (s ∈ symbols)))
    (hbinary : ∀ s, (b'.operators.binary? s).isSome = (r.means? s).getD (b.operators.binary? s).isSome)
    (hunary : ∀ s, (b'.operators.unary? s).isSome =
      (r.lists? .unary s).getD (b.operators.unary? s).isSome) : Reflects (requests ++ [r]) b' where
  listed := by
    obtain ⟨listed, hmap, hlisted⟩ := h.listed
    refine ⟨fun g => if g = group then change (listed g) else listed g, ?_, fun g s => ?_⟩
    · rw [hgroups, changeGroup, hmap, List.map_map]
      rfl
    · rw [hlists, hlisted, getD_lastly_concat]
  binary s := by rw [hbinary, h.binary, getD_lastly_concat]
  unary s := by rw [hunary, h.unary, getD_lastly_concat]

/-- The symbols of a group after one more was added, as `addSymbol` does it. -/
theorem decide_mem_added (symbol s : String) (group g : OperatorGroup) (symbols : List String) :
    decide (s ∈ if g = group then (if symbols.contains symbol then symbols else symbols ++ [symbol])
      else symbols) =
      (if group = g ∧ symbol = s then some true else none).getD (decide (s ∈ symbols)) := by
  by_cases hg : g = group
  · subst hg
    by_cases hs : symbol = s
    · by_cases hmem : s ∈ symbols <;> simp [hs, hmem]
    · by_cases hmem : symbol ∈ symbols <;> simp [hs, hmem, Ne.symm hs]
  · simp [hg, Ne.symm hg]

theorem decide_mem_removed (symbol s : String) (group g : OperatorGroup) (symbols : List String) :
    decide (s ∈ if g = group then symbols.filter (· ≠ symbol) else symbols) =
      (if group = g ∧ symbol = s then some false else none).getD (decide (s ∈ symbols)) := by
  by_cases hg : g = group
  · subst hg
    by_cases hs : symbol = s
    · simp [hs]
    · simp [hs, Ne.symm hs]
  · simp [hg, Ne.symm hg]

theorem Reflects.binary_concat (h : Reflects requests b) {group : OperatorGroup} (symbol : String)
    (meaning : BinaryMeaning σ) (hgroup : takesBinary group = true) :
    Reflects (requests ++ [.binary group symbol meaning])
      { b.addSymbol group symbol with operators := b.operators.addBinary symbol meaning } := by
  refine h.concat _ group _ rfl (fun symbols g s => decide_mem_added ..) (fun s => ?_) fun s => ?_
  · simp only [Operators.binary?, Operators.addBinary, Operators.lookup_put, Request.means?]
    split <;> rfl
  · have hlists : (Request.binary group symbol meaning).lists? .unary s = none := by
      refine if_neg ?_
      rintro ⟨rfl, -⟩
      cases hgroup
    rw [hlists]
    rfl

theorem Reflects.unary_concat (h : Reflects requests b) (symbol : String) (meaning : UnaryMeaning σ) :
    Reflects (requests ++ [.unary symbol meaning])
      { b.addSymbol .unary symbol with operators := b.operators.addUnary symbol meaning } := by
  refine h.concat _ .unary _ rfl (fun symbols g s => decide_mem_added ..) (fun s => rfl) fun s => ?_
  simp only [Operators.unary?, Operators.addUnary, Operators.lookup_put, Request.lists?, true_and]
  split <;> rfl

theorem groups_remove (group : OperatorGroup) (symbol : String) :
    (b.remove group symbol).groups =
      (b.changeGroup group fun symbols => symbols.filter (· ≠ symbol)).groups := by
  simp only [EngineBuilder.remove]
  split_ifs <;> rfl

theorem binary?_remove (group : OperatorGroup) (symbol s : String) :
    (b.remove group symbol).operators.binary? s =
      if takesBinary group = true ∧ symbol = s then none else b.operators.binary? s := by
  simp only [EngineBuilder.remove, takesBinary]
  split_ifs <;> simp_all [Operators.binary?, Operators.removeUnary, Operators.removeBinary,
    Operators.lookup_drop, changeGroup]

theorem unary?_remove (group : OperatorGroup) (symbol s : String) :
    (b.remove group symbol).operators.unary? s =
      if group = .unary ∧ symbol = s then none else b.operators.unary? s := by
  simp only [EngineBuilder.remove]
  split_ifs <;> simp_all [Operators.unary?, Operators.removeUnary, Operators.removeBinary,
    Operators.lookup_drop, changeGroup]

theorem error_remove (group : OperatorGroup) (symbol : String) : (b.remove group symbol).error = b.error := by
  simp only [EngineBuilder.remove]
  split_ifs <;> rfl

theorem Reflects.remove_concat (h : Reflects requests b) (group : OperatorGroup) (symbol : String) :
    Reflects (requests ++ [.remove group symbol]) (b.remove group symbol) := by
  refine h.concat _ group _ (groups_remove group symbol) (fun symbols g s => decide_mem_removed ..)
    (fun s => ?_) fun s => ?_
  · rw [binary?_remove, Request.means?]
    split <;> rfl
  · rw [unary?_remove, Request.lists?]
    split <;> rfl

theorem error_refuse (e : ConfigError) : (b.refuse e).error ≠ none := by
  cases h : b.error <;> simp [refuse, h]

/-- What a request leaves that is not refused, where none was refused before. -/
theorem reflects_perform {r : Request σ} (h : b.error = none → Reflects requests b)
    (hr : (b.perform r).error = none) : Reflects (requests ++ [r]) (b.perform r) := by
  cases r with
  | binary group symbol meaning =>
    simp only [EngineBuilder.perform, EngineBuilder.binary] at hr ⊢
    split at hr <;> rename_i hgroup
    · exact absurd hr (error_refuse _)
    split at hr <;> rename_i hsymbol
    · exact absurd hr (error_refuse _)
    rw [if_neg hgroup, if_neg hsymbol]
    exact (h hr).binary_concat symbol meaning (by simpa using hgroup)
  | unary symbol meaning =>
    simp only [EngineBuilder.perform, EngineBuilder.unary] at hr ⊢
    split at hr <;> rename_i hsymbol
    · exact absurd hr (error_refuse _)
    rw [if_neg hsymbol]
    exact (h hr).unary_concat symbol meaning
  | remove group symbol =>
    -- A removal is never refused.
    exact (h ((error_remove group symbol).symm.trans hr)).remove_concat group symbol

/-- What requests lead to of which none was refused. -/
theorem reflects_configure (hr : (configure requests).error = none) :
    Reflects requests (configure requests) := by
  induction requests using List.reverseRecOn with
  | nil => exact reflects_start
  | append_singleton requests r ih =>
    rw [configure_concat] at hr ⊢
    exact reflects_perform ih hr

/-! ### The engine -/

theorem build_eq_ok {engine : Engine σ} : b.build = .ok engine ↔ b.error = none ∧
    engine = ⟨.ofGroups (b.groups.map fun (g, symbols) => (g.name, symbols)), b.operators⟩ := by
  unfold build
  cases b.error with
  | none => simp [eq_comm]
  | some e => simp

/-- No configuration lists the empty symbol, which no matcher finds. -/
theorem Configured.ne_empty (h : b.Configured) : b.Holds fun _ s => s ≠ "" := by
  refine h.holds (fun g s hs => ?_) fun g s hvalid => ?_
  · have hbuiltIn : ∀ g : OperatorGroup, "" ∉ g.builtIn := by
      intro g
      cases g <;> decide
    rintro rfl
    exact hbuiltIn g hs
  · rintro rfl
    cases hvalid

section
variable {engine : Engine σ} {symbol : String}

/-- An engine lists a symbol in a group if the last request tells so that is about both, or if none is and the
symbol was there from the start. -/
theorem lists_of_build (hb : (configure requests).build = .ok engine) (g : OperatorGroup) :
    engine.symbols.Lists g symbol ↔
      (lastly (Request.lists? g symbol) requests).getD (decide (symbol ∈ g.builtIn)) = true := by
  obtain ⟨herror, rfl⟩ := build_eq_ok.1 hb
  obtain ⟨listed, hgroups, hlisted⟩ := (reflects_configure herror).listed
  have hg : (g, listed g) ∈ (configure requests).groups := by
    rw [hgroups]
    exact List.mem_map_of_mem (by cases g <;> decide)
  have hnonempty : symbol ∈ listed g → symbol ≠ "" :=
    (configured_configure requests).ne_empty g (listed g) hg symbol
  simp only [hgroups, List.map_map]
  rw [← hlisted, decide_eq_true_iff]
  exact (@SymbolTable.lists_ofGroups listed g symbol).trans (and_iff_left_of_imp hnonempty)

/-- A symbol that a level lists with no meaning left: the last request about the level and the symbol added
it, the last request about the symbol, in whatever group, took its meaning away, and the level has no meaning
of its own for it. -/
structure Orphaned (requests : List (Request σ)) (level : BinaryLevel) (symbol : String) : Prop where
  added : lastly (Request.lists? level.group symbol) requests = some true
  taken : lastly (Request.means? symbol) requests = some false
  unmeant : ∀ op ∈ BinaryOp.builtIn level, op.symbol ≠ symbol

theorem takesBinary_group (level : BinaryLevel) : takesBinary level.group = true := by
  cases level <;> rfl

/-- A symbol that was added to a level has a meaning, unless a removal from another group took it away. -/
theorem means_of_lists {level : BinaryLevel}
    (h : lastly (Request.lists? level.group symbol) requests = some true) :
    lastly (Request.means? symbol) requests = some true ∨
      lastly (Request.means? symbol) requests = some false ∧
        ∃ group ≠ level.group, takesBinary group = true ∧ .remove group symbol ∈ requests := by
  induction requests using List.reverseRecOn with
  | nil => cases h
  | append_singleton requests r ih =>
    rw [lastly_concat] at h ⊢
    have hbefore : r.lists? level.group symbol = none → r.means? symbol = none →
        (r.means? symbol <|> lastly (Request.means? symbol) requests) = some true ∨
          (r.means? symbol <|> lastly (Request.means? symbol) requests) = some false ∧
            ∃ group ≠ level.group, takesBinary group = true ∧ .remove group symbol ∈ requests ++ [r] := by
      intro hlists hmeans
      rw [hlists] at h
      rw [hmeans]
      obtain hmeant | ⟨htaken, group, hne, htakes, hmem⟩ := ih h
      · exact .inl hmeant
      · exact .inr ⟨htaken, group, hne, htakes, List.mem_append_left _ hmem⟩
    cases r with
    | binary group s meaning =>
      by_cases hs : s = symbol
      · exact .inl (by simp [Request.means?, hs])
      · exact hbefore (if_neg fun h => hs h.2) (if_neg hs)
    | unary s meaning =>
      refine hbefore (if_neg ?_) rfl
      cases level <;> simp [BinaryLevel.group]
    | remove group s =>
      by_cases htaken : takesBinary group = true ∧ s = symbol
      · obtain ⟨htakes, rfl⟩ := htaken
        refine .inr ⟨by simp [Request.means?, htakes], group, ?_, htakes, by simp⟩
        rintro rfl
        simp [Request.lists?] at h
      · refine hbefore (if_neg ?_) (if_neg htaken)
        rintro ⟨rfl, hs⟩
        exact htaken ⟨takesBinary_group level, hs⟩

namespace Orphaned
variable {level : BinaryLevel} (h : Orphaned requests level symbol)
include h

/-- An orphaned symbol lost its meaning when it was removed from another group than the one that lists it. -/
theorem removed : ∃ group ≠ level.group, takesBinary group = true ∧ .remove group symbol ∈ requests := by
  obtain hmeant | ⟨-, hremoved⟩ := means_of_lists h.added
  · rw [h.taken] at hmeant
    cases hmeant
  · exact hremoved

theorem listed (hb : (configure requests).build = .ok engine) : engine.symbols.Lists level.group symbol := by
  rw [lists_of_build hb, h.added]
  rfl

theorem meaningless (hb : (configure requests).build = .ok engine) :
    engine.operators.binary? symbol = none := by
  obtain ⟨herror, rfl⟩ := build_eq_ok.1 hb
  have hmeans := (reflects_configure herror).binary symbol
  rw [h.taken] at hmeans
  exact Option.not_isSome_iff_eq_none.1 (by simp [hmeans])

theorem admitted (hb : (configure requests).build = .ok engine) (l l' : Literal) :
    (Expr.binary level (.custom symbol) (.literal l) (.literal l')).Admitted engine.symbols :=
  ⟨⟨h.listed hb, .inr ⟨rfl, h.unmeant⟩⟩, ⟨trivial, trivial⟩, ⟨trivial, trivial⟩⟩

end Orphaned

/-- What an engine recognises without a meaning is orphaned. -/
theorem lacksMeaning_iff_orphaned (hb : (configure requests).build = .ok engine) :
    engine.symbols.LacksMeaning engine.operators symbol ↔ ∃ level, Orphaned requests level symbol := by
  obtain ⟨herror, hengine⟩ := build_eq_ok.1 hb
  have hreflects := reflects_configure herror
  have hadded : ∀ {g : OperatorGroup}, engine.symbols.Lists g symbol → symbol ∉ g.builtIn →
      lastly (Request.lists? g symbol) requests = some true := by
    intro g hlists hnew
    have hlast := (lists_of_build hb g).1 hlists
    rw [decide_eq_false hnew] at hlast
    exact (Option.getD_eq_iff.1 hlast).resolve_right (by simp)
  constructor
  · rintro (⟨level, hlists, hunmeant, hnone⟩ | ⟨hlists, hunmeant, hnone⟩)
    · have hlast := hadded hlists fun hmem =>
        let ⟨op, hop, hs⟩ := BinaryOp.exists_mem_builtIn symbol hmem
        hunmeant op hop hs
      have hmeans := hreflects.binary symbol
      rw [hengine] at hnone
      rw [hnone] at hmeans
      obtain hmeant | ⟨htaken, -⟩ := means_of_lists hlast
      · rw [hmeant] at hmeans
        cases hmeans
      · exact ⟨level, hlast, htaken, hunmeant⟩
    -- A unary operator has its meaning as long as it is listed.
    · have hlast := hadded hlists fun hmem =>
        let ⟨op, hop, hs⟩ := UnaryOp.exists_mem_builtIn symbol hmem
        hunmeant op hop hs
      have hmeans := hreflects.unary symbol
      rw [hengine] at hnone
      rw [hnone, hlast] at hmeans
      cases hmeans
  · rintro ⟨level, h⟩
    exact .binary level (h.listed hb) h.unmeant (h.meaningless hb)

/-- With an engine that requests led to, a parsed expression finds an operator unsupported only if the symbol
is orphaned, so that it was removed from another group than the one that lists it; and every orphaned symbol
makes an expression fail so. -/
theorem unsupported_only_orphaned (hb : (configure requests).build = .ok engine) :
    (∀ {source e}, Expr.parse source engine.symbols = .ok e →
      ∀ (host : Host σ) (I : World σ → Prop), Setting.HostErrors ⟨host, engine.operators⟩ I →
        ∀ scope q, (e.eval scope .done).Remains ⟨host, engine.operators⟩ I q → ∀ w, I w →
          ∀ symbol w', q.poll ⟨host, engine.operators⟩ w = (.failed (.unsupportedOperator symbol), w') →
            ∃ level, Orphaned requests level symbol ∧
              ∃ group ≠ level.group, takesBinary group = true ∧ .remove group symbol ∈ requests) ∧
      ∀ level symbol, Orphaned requests level symbol → ∀ l l' : Literal,
        (Expr.binary level (.custom symbol) (.literal l) (.literal l')).Admitted engine.symbols ∧
          ∀ (host : Host σ) scope w,
            (Expr.binary level (.custom symbol) (.literal l) (.literal l')).invoke
              ⟨host, engine.operators⟩ scope w = (.failed (.unsupportedOperator symbol), w) := by
  constructor
  · intro source e he host I hs scope q hq w hw symbol w' hpoll
    obtain ⟨-, hengine⟩ := build_eq_ok.1 hb
    have hadmitted : e.Admitted engine.symbols := by
      rw [hengine] at he ⊢
      exact Expr.admitted_of_parse he
    obtain ⟨-, hlacks⟩ := hadmitted.fails hs hq hw hpoll
    obtain ⟨level, horphaned⟩ := (lacksMeaning_iff_orphaned hb).1 (hlacks symbol rfl)
    exact ⟨level, horphaned, horphaned.removed⟩
  · intro level symbol h l l'
    refine ⟨h.admitted hb l l', fun host scope w => ?_⟩
    simp only [Expr.invoke, Expr.eval, Process.poll, Operators.applyBinary, BinaryOp.symbol, h.meaningless hb]
    rfl

/-- `@` as an operator next to `+`, then taken away from the comparisons. -/
def takenElsewhere : List (Request Unit) :=
  [.binary .additive "@" fun a _ w => (.ok a, w), .remove .equality "@"]

/-- The engine that lists `@` next to `+` and has no meanings. -/
def takenEngine : Engine Unit :=
  ⟨.ofGroups ((configure takenElsewhere).groups.map fun (g, symbols) => (g.name, symbols)), .empty⟩

/-- The tree of `1 @ 2`. -/
def takenExpr : Expr :=
  .binary .additive (.custom "@") (.constant .number "1") (.constant .number "2")

theorem unsupported_only_orphaned_taken :
    (configure takenElsewhere).build = .ok takenEngine ∧
      Expr.parse "1 @ 2" takenEngine.symbols = .ok takenExpr ∧
        refusing.HostErrors (fun w => w.outcomes = #[]) ∧ refusing.operators = takenEngine.operators ∧
          (takenExpr.invoke refusing ⟨.undefined, .object 0⟩ refusingWorld).1 =
              .failed (.unsupportedOperator "@") ∧
            ∃ level, Orphaned takenElsewhere level "@" ∧
              ∃ group ≠ level.group, takesBinary group = true ∧ .remove group "@" ∈ takenElsewhere := by
  have hb : (configure takenElsewhere).build = .ok takenEngine := rfl
  have hparse : Expr.parse "1 @ 2" takenEngine.symbols = .ok takenExpr := by cbv
  have horphaned := (unsupported_only_orphaned hb).1 hparse refusing.host _ hostErrors_refusing
    ⟨.undefined, .object 0⟩ _ .whole refusingWorld rfl "@" _ rfl
  exact ⟨hb, hparse, hostErrors_refusing, rfl, rfl, horphaned⟩

end

end EngineBuilder

end LatentExpr
