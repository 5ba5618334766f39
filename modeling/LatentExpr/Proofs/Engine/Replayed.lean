import LatentExpr.Proofs.Engine.History
import LatentExpr.Proofs.Symbols.Listed

/-!
A configuration is a replay of its requests. Each request is rejected or not on its own account, so the error
of a configuration is that of its first rejected request (`error_configure`). Each request is about one symbol
of one group, and the last one about both decides. So a table of symbols depends on the requests for each
symbol of each group and not on how these are mixed, and it is the table of the built-in symbols whenever
these are what is left (`replayed`).
-/
namespace LatentExpr

/-- A table depends on which symbols its groups list, not on how they are listed. -/
theorem SymbolTable.ofGroups_congr {listed listed' : OperatorGroup → List String}
    (h : ∀ g s, s ≠ "" → (s ∈ listed g ↔ s ∈ listed' g)) :
    ofGroups (OperatorGroup.all.map fun g => (g.name, listed g)) =
      ofGroups (OperatorGroup.all.map fun g => (g.name, listed' g)) := by
  have hmatchers : ∀ g, Matcher.ofSymbols (listed g) = Matcher.ofSymbols (listed' g) :=
    fun g => Matcher.ofSymbols_congr (h g)
  simp only [ofGroups, List.foldl_map, hmatchers]

namespace EngineBuilder
variable {σ : Type}

namespace Request

/-- Why a request is rejected: a binary operator for a group that takes none, or a symbol that cannot be read
as an operator. A removal never is. -/
def rejection? : Request σ → Option ConfigError
  | .binary group symbol _ =>
    if takesBinary group = false then some (.notBinaryGroup group symbol)
    else if validSymbol symbol = false then some (.invalidSymbol symbol)
    else none
  | .unary symbol _ => if validSymbol symbol = false then some (.invalidSymbol symbol) else none
  | .remove .. => none

/-- The group and the symbol that a request is about. -/
def target : Request σ → OperatorGroup × String
  | .binary group symbol _ => (group, symbol)
  | .unary symbol _ => (.unary, symbol)
  | .remove group symbol => (group, symbol)

/-- A request lists or unlists what it is about and nothing else. -/
theorem lists?_eq_none_iff (r : Request σ) (g : OperatorGroup) (s : String) :
    r.lists? g s = none ↔ r.target ≠ (g, s) := by
  cases r <;> simp [lists?, target]

end Request

variable {b : EngineBuilder σ} {r : Request σ} {requests others : List (Request σ)} {engine : Engine σ}

/-! ### Rejected requests -/

/-- A rejected request leaves the groups and the meanings as they are, and its error if there is none yet. -/
theorem perform_of_rejection {e : ConfigError} (h : r.rejection? = some e) : b.perform r = b.refuse e := by
  cases r with
  | binary group symbol meaning =>
    simp only [Request.rejection?] at h
    simp only [EngineBuilder.perform, EngineBuilder.binary]
    split_ifs at h <;> simp_all
  | unary symbol meaning =>
    simp only [Request.rejection?] at h
    simp only [EngineBuilder.perform, EngineBuilder.unary]
    split_ifs at h
    simp_all
  | remove group symbol => cases h

/-- A request that is not rejected makes no error. -/
theorem error_perform_of_none (h : r.rejection? = none) : (b.perform r).error = b.error := by
  cases r with
  | binary group symbol meaning =>
    simp only [Request.rejection?] at h
    split_ifs at h with hgroup hsymbol
    simp [EngineBuilder.perform, EngineBuilder.binary, hgroup, hsymbol, addSymbol, changeGroup]
  | unary symbol meaning =>
    simp only [Request.rejection?] at h
    split_ifs at h with hsymbol
    simp [EngineBuilder.perform, EngineBuilder.unary, hsymbol, addSymbol, changeGroup]
  | remove group symbol => exact error_remove group symbol

theorem error_perform (b : EngineBuilder σ) (r : Request σ) :
    (b.perform r).error = b.error.or r.rejection? := by
  cases h : r.rejection? with
  | none => rw [error_perform_of_none h, Option.or_none]
  | some e =>
    rw [perform_of_rejection h]
    cases hb : b.error <;> simp [refuse, hb]

/-- The first rejected request makes the error of a configuration. -/
theorem error_configure (requests : List (Request σ)) :
    (configure requests).error = requests.findSome? Request.rejection? := by
  induction requests using List.reverseRecOn with
  | nil => rfl
  | append_singleton requests r ih =>
    rw [configure_concat, error_perform, ih, List.findSome?_append, List.findSome?_singleton]

theorem build_eq_error {e : ConfigError} : b.build = .error e ↔ b.error = some e := by
  unfold build
  cases b.error with
  | none => simp
  | some e' => simp

/-! ### Tables -/

/-- What is about one symbol of one group decides alone whether the group lists it. -/
theorem lastly_lists?_filter (requests : List (Request σ)) (g : OperatorGroup) (s : String) :
    lastly (Request.lists? g s) (requests.filter fun r => r.target = (g, s)) =
      lastly (Request.lists? g s) requests := by
  induction requests using List.reverseRecOn with
  | nil => rfl
  | append_singleton requests r ih =>
    rw [List.filter_append, lastly_concat]
    by_cases h : r.target = (g, s)
    · rw [List.filter_cons_of_pos (by simpa using h), List.filter_nil, lastly_concat, ih]
    · rw [List.filter_cons_of_neg (by simpa using h), List.filter_nil, List.append_nil, ih,
        (Request.lists?_eq_none_iff r g s).2 h]
      rfl

/-- The table that requests lead to, by the lists of its groups. -/
theorem exists_listed (hb : (configure requests).build = .ok engine) :
    ∃ listed : OperatorGroup → List String,
      engine.symbols = .ofGroups (OperatorGroup.all.map fun g => (g.name, listed g)) ∧
        (configure requests).groups = OperatorGroup.all.map (fun g => (g, listed g)) ∧
          ∀ g s, decide (s ∈ listed g) =
            (lastly (Request.lists? g s) requests).getD (decide (s ∈ g.builtIn)) := by
  obtain ⟨herror, rfl⟩ := build_eq_ok.1 hb
  obtain ⟨listed, hgroups, hlisted⟩ := (reflects_configure herror).listed
  refine ⟨listed, ?_, hgroups, hlisted⟩
  simp only [hgroups, List.map_map]
  rfl

/-- Requests after which the same symbols are listed lead to the same table. -/
theorem symbols_eq_of_lastly {engine' : Engine σ} (hb : (configure requests).build = .ok engine)
    (hb' : (configure others).build = .ok engine')
    (h : ∀ g s, (lastly (Request.lists? g s) requests).getD (decide (s ∈ g.builtIn)) =
      (lastly (Request.lists? g s) others).getD (decide (s ∈ g.builtIn))) :
    engine.symbols = engine'.symbols := by
  obtain ⟨listed, hsymbols, -, hlisted⟩ := exists_listed hb
  obtain ⟨listed', hsymbols', -, hlisted'⟩ := exists_listed hb'
  rw [hsymbols, hsymbols']
  refine SymbolTable.ofGroups_congr fun g s _ => ?_
  rw [← decide_eq_decide, hlisted, hlisted', h]

/-- Requests that were mixed otherwise: for each symbol of each group the same requests in the same order. -/
def Remixed (requests others : List (Request σ)) : Prop :=
  ∀ g s, (requests.filter fun r => r.target = (g, s)) = others.filter fun r => r.target = (g, s)

/-- Two requests that are about different symbols or groups can change places. -/
theorem Remixed.swap {r r' : Request σ} (h : r.target ≠ r'.target) (before after : List (Request σ)) :
    Remixed (before ++ r :: r' :: after) (before ++ r' :: r :: after) := by
  intro g s
  rw [List.filter_append, List.filter_append]
  congr 1
  by_cases hr : r.target = (g, s)
  · have hr' : r'.target ≠ (g, s) := fun heq => h (hr.trans heq.symm)
    simp [hr, hr']
  · simp [List.filter_cons, hr]

theorem Remixed.mem (h : Remixed requests others) (hr : r ∈ others) : r ∈ requests := by
  have hmem : r ∈ others.filter fun other => other.target = (r.target.1, r.target.2) :=
    List.mem_filter.2 ⟨hr, decide_eq_true rfl⟩
  rw [← h] at hmem
  exact List.mem_of_mem_filter hmem

theorem Remixed.build (h : Remixed requests others) (hb : (configure requests).build = .ok engine) :
    ∃ engine', (configure others).build = .ok engine' ∧ engine'.symbols = engine.symbols := by
  have hnone : (configure others).error = none := by
    rw [error_configure, List.findSome?_eq_none_iff]
    intro r hr
    have herror := (build_eq_ok.1 hb).1
    rw [error_configure, List.findSome?_eq_none_iff] at herror
    exact herror r (h.mem hr)
  refine ⟨_, build_eq_ok.2 ⟨hnone, rfl⟩, ?_⟩
  refine symbols_eq_of_lastly (build_eq_ok.2 ⟨hnone, rfl⟩) hb fun g s => ?_
  rw [← lastly_lists?_filter requests, h g s, lastly_lists?_filter]

/-- Where the built-in symbols are left, the table is that of the engine that was never configured. -/
theorem symbols_eq_default (hb : (configure requests).build = .ok engine)
    (h : ∀ g symbols, (g, symbols) ∈ (configure requests).groups → ∀ s, s ∈ symbols ↔ s ∈ g.builtIn) :
    engine.symbols = (Engine.default : Engine σ).symbols := by
  obtain ⟨listed, hsymbols, hgroups, -⟩ := exists_listed hb
  rw [hsymbols]
  refine SymbolTable.ofGroups_congr fun g s _ => h g (listed g) ?_ s
  rw [hgroups]
  exact List.mem_map_of_mem (by cases g <;> decide)

/-- Whatever is requested, a configuration fails exactly if a request is rejected, with the error of the first
one that is, and a rejected request changes nothing else. Otherwise a group lists a symbol if the last request
about both added it, or if there is none and the symbol is built in; the same requests mixed otherwise lead to
the same table; and a configuration that is left with the built-in symbols has the table of the default
engine. -/
theorem replayed (requests : List (Request σ)) :
    (∀ e, (configure requests).build = .error e ↔ requests.findSome? Request.rejection? = some e) ∧
    (∀ (b : EngineBuilder σ) r e, r.rejection? = some e →
      (b.perform r).groups = b.groups ∧ (b.perform r).operators = b.operators) ∧
    ((∀ r ∈ requests, r.rejection? = none) → ∃ engine, (configure requests).build = .ok engine ∧
      (∀ g s, engine.symbols.Lists g s ↔
        lastly (Request.lists? g s) requests = some true ∨
          lastly (Request.lists? g s) requests = none ∧ s ∈ g.builtIn) ∧
      (∀ others, Remixed requests others →
        ∃ engine', (configure others).build = .ok engine' ∧ engine'.symbols = engine.symbols) ∧
      ((∀ g symbols, (g, symbols) ∈ (configure requests).groups → ∀ s, s ∈ symbols ↔ s ∈ g.builtIn) →
        engine.symbols = (Engine.default : Engine σ).symbols)) := by
  refine ⟨fun e => ?_, fun b r e he => ?_, fun hnone => ?_⟩
  · rw [build_eq_error, error_configure]
  · rw [perform_of_rejection he]
    exact ⟨rfl, rfl⟩
  · have herror : (configure requests).error = none := by
      rwa [error_configure, List.findSome?_eq_none_iff]
    have hb : (configure requests).build = .ok _ := build_eq_ok.2 ⟨herror, rfl⟩
    refine ⟨_, hb, fun g s => ?_, fun others h => h.build hb, symbols_eq_default hb⟩
    rw [lists_of_build hb]
    cases lastly (Request.lists? g s) requests with
    | none => simp
    | some listed => simp

/-- `@` as an operator next to `+` and `~` before an operand, both taken away again. -/
def undone : List (Request Unit) :=
  [.binary .additive "@" (fun a _ w => (.ok a, w)), .unary "~" (fun a w => (.ok a, w)), .remove .additive "@",
    .remove .unary "~"]

/-- The same with `@` taken away before `~` is added. -/
def undoneEarlier : List (Request Unit) :=
  [.binary .additive "@" (fun a _ w => (.ok a, w)), .remove .additive "@", .unary "~" (fun a w => (.ok a, w)),
    .remove .unary "~"]

/-- An operator for a group that takes none and a symbol that is a name. -/
def rejectedTwice : List (Request Unit) :=
  [.binary .logical "@" (fun a _ w => (.ok a, w)), .unary "not" (fun a w => (.ok a, w))]

theorem replayed_undone :
    (∃ engine engine', (configure undone).build = .ok engine ∧ (configure undoneEarlier).build = .ok engine' ∧
      engine.symbols = (Engine.default : Engine Unit).symbols ∧ engine'.symbols = engine.symbols) ∧
      (configure rejectedTwice).build = .error (.notBinaryGroup .logical "@") := by
  have haccepted : ∀ r ∈ undone, r.rejection? = none := by
    simp only [undone, List.forall_mem_cons]
    decide
  have hremixed : Remixed undone undoneEarlier := .swap (by decide) [_] [_]
  have hgroups : (configure undone).groups = (start : EngineBuilder Unit).groups := rfl
  obtain ⟨engine, hb, -, hmixed, hdefault⟩ := (replayed undone).2.2 haccepted
  obtain ⟨engine', hb', hsame⟩ := hmixed undoneEarlier hremixed
  refine ⟨⟨engine, engine', hb, hb', hdefault fun g symbols hmem s => ?_, hsame⟩,
    ((replayed rejectedTwice).1 _).2 rfl⟩
  rw [hgroups] at hmem
  obtain ⟨g', -, heq⟩ := List.mem_map.1 hmem
  obtain ⟨rfl, rfl⟩ := Prod.mk.inj heq
  exact Iff.rfl

end EngineBuilder

end LatentExpr
