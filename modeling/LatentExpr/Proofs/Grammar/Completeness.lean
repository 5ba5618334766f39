import LatentExpr.Proofs.Grammar.Soundness

/-!
The parser reads whatever has a greedy derivation. Each function reads the tokens of its phrase and stops
before what follows, provided that what follows cannot continue the phrase and that the budget is large
enough; a budget of sixteen for each token and some more on each level is.
-/
namespace LatentExpr

open Lexeme Lexer

/-! ### What cannot follow -/

/-- No symbol of a list comes next, and no token but a symbol. -/
def Stops (symbols : List String) (rest : List Piece) : Prop :=
  ∀ p, rest.head? = some p → p.kind = .symbol ∧ p.text ∉ symbols

/-- The symbols that go on after a postfix. -/
def postfixSymbols : List String := ["(", "[", "."]

/-- The symbols that go on after an operand of some levels. -/
def chainSymbols (levels : List Level) : List String :=
  levels.flatMap Level.symbols ++ postfixSymbols

/-- The symbols that go on after a ternary. -/
def ternarySymbols (hungry : Bool) : List String :=
  (if hungry then [",", "="] else []) ++ "?" :: chainSymbols Level.all

/-- The symbols that go on after an assignment. -/
def assignmentSymbols (hungry : Bool) : List String :=
  (if hungry then [","] else []) ++ "=" :: "?" :: chainSymbols Level.all

/-- The symbols that go on after an expression. -/
def exprSymbols : List String := assignmentSymbols true

namespace Stops

variable {symbols more : List String} {rest : List Piece} {s : String} {c : Char}

theorem mono (h : Stops symbols rest) (hsub : more ⊆ symbols) : Stops more rest :=
  fun p hp => ⟨(h p hp).1, fun hmem => (h p hp).2 (hsub hmem)⟩

theorem of_symbol (hs : s ∉ symbols) : Stops symbols (.symbol s :: rest) := by
  intro p hp
  obtain rfl := Option.some.inj hp
  exact ⟨rfl, hs⟩

theorem of_punct (hc : c.toString ∉ symbols) : Stops symbols (.punct c :: rest) := of_symbol hc

theorem nil : Stops symbols [] := nofun

theorem ne_symbol (h : Stops symbols rest) (hs : s ∈ symbols) : rest.head? ≠ some (.symbol s) :=
  fun hhead => (h _ hhead).2 hs

theorem ne_punct (h : Stops symbols rest) (hc : c.toString ∈ symbols) :
    rest.head? ≠ some (.punct c) := h.ne_symbol hc

theorem isSymbol (h : Stops symbols rest) : ∀ p, rest.head? = some p → p.kind = .symbol :=
  fun p hp => (h p hp).1

end Stops

/-- An operator of a level belongs to no tighter one and is no postfix. -/
theorem not_mem_chainSymbols {level : Level} {tighter : List Level} {s : String}
    (h : level :: tighter <:+ Level.all) (hs : s ∈ level.symbols) : s ∉ chainSymbols tighter := by
  have hall : ∀ levels ∈ Level.all.tails, ∀ level ∈ levels.head?, ∀ s ∈ level.symbols,
      s ∉ chainSymbols levels.tail := by decide
  exact hall _ ((List.mem_tails _ _).2 h) level rfl s hs

/-! ### What is read -/

/-- A function of the parser reads a run of tokens before whatever may follow it. -/
def Runs {α : Type} (run : Nat → Parsing α) (a : α) (cost : Nat) (follows : List Piece → Prop)
    (T : List Piece) : Prop :=
  ∀ (budget : Nat) {rest : List Piece} {l : Lexer}, 16 * T.length + cost ≤ budget →
    l.Ahead (T ++ rest) → follows rest → ∃ l', run budget l = .ok (a, l') ∧ l'.Ahead rest

/-- What the parser does before the tokens of a phrase. -/
def Phrase.Accepted : Phrase → Bool → List Piece → Prop
  | .expr e, _, T => Runs Parsing.expr e 12 (Stops exprSymbols) T
  | .items es, _, T => Runs Parsing.ternaries es 11 (Stops exprSymbols) T
  | .assignment e, o, T => Runs Parsing.assignment e 11 (Stops (assignmentSymbols o)) T
  | .ternary e, o, T => Runs Parsing.ternary e 10 (Stops (ternarySymbols o)) T
  | .chain levels e, _, T => levels <:+ Level.all →
    Runs (fun budget => Parsing.chain budget levels) e (3 + levels.length)
      (Stops (chainSymbols levels)) T
  | .chainRest level tighter left e, _, T => level :: tighter <:+ Level.all →
    Runs (fun budget => Parsing.chainRest budget level tighter left) e 1
      (Stops (chainSymbols (level :: tighter))) T
  | .unary e, _, T => Runs Parsing.unary e 2 (Stops postfixSymbols) T
  | .postfixes left e, _, T =>
    Runs (fun budget => Parsing.postfixes budget left) e 1 (Stops postfixSymbols) T
  | .primary e, _, T => Runs Parsing.primary e 1 (fun _ => True) T
  | .elements es, _, T => ∀ close ∈ [')', ']'],
    Runs (fun budget => Parsing.elements budget close) es 13
      (fun rest => rest.head? = some (.punct close)) T
  | .slots es, _, T => ∀ close ∈ [')', ']'],
    Runs (fun budget => Parsing.elementsRest budget close) es 12
      (fun rest => rest.head? = some (.punct close)) T
  | .slot e, o, T => (T = [] ∧ e = .literal .undefined) ∨
    (∃ p U, T = p :: U ∧ p.StartsExpr) ∧
      Runs Parsing.assignment e 11 (Stops (assignmentSymbols o)) T
  | .properties ps, _, T =>
    Runs Parsing.properties ps 14 (fun rest => rest.head? = some (.punct '\x7d')) T
  | .places ps, _, T =>
    Runs Parsing.propertiesRest ps 13 (fun rest => rest.head? = some (.punct '\x7d')) T
  | .place ps, o, T => (T = [] ∧ ps = []) ∨
    ∃ p, ps = [p] ∧ (∃ q U, T = q :: U ∧ q.StartsProperty) ∧
      Runs Parsing.property p 12 (Stops (":" :: assignmentSymbols o)) T
  | .property p, o, T => Runs Parsing.property p 12 (Stops (":" :: assignmentSymbols o)) T

namespace Accepted

variable {o o' : Bool} {T U V : List Piece} {e left right target value test consequent alternate : Expr}
  {es : List Expr}

/-! ### Expressions, items and assignments -/

theorem single (ih : Phrase.Accepted (.assignment e) o T) : Phrase.Accepted (.expr e) true T := by
  intro budget rest l hbudget hahead hstops
  obtain ⟨budget, rfl⟩ : ∃ b, budget = b + 1 := ⟨budget - 1, by omega⟩
  have hsub : assignmentSymbols o ⊆ exprSymbols := by cases o <;> decide
  obtain ⟨l₁, hfirst, hahead⟩ := ih budget (by omega) hahead (hstops.mono hsub)
  obtain ⟨l₂, hcomma, hahead⟩ := hahead.consume_other ',' (by decide) (hstops.ne_punct (by decide)) nofun
  refine ⟨l₂, ?_, hahead⟩
  rw [Parsing.expr, Parsing.bind_of_ok hfirst, Parsing.bind_of_ok hcomma]
  rfl

theorem sequence (ih : Phrase.Accepted (.assignment e) false T)
    (ihs : Phrase.Accepted (.items es) true U) :
    Phrase.Accepted (.expr (.comma (e :: es))) true (T ++ .punct ',' :: U) := by
  intro budget rest l hbudget hahead hstops
  simp only [List.length_append, List.length_cons] at hbudget
  obtain ⟨budget, rfl⟩ : ∃ b, budget = b + 1 := ⟨budget - 1, by omega⟩
  rw [List.append_assoc, List.cons_append] at hahead
  obtain ⟨l₁, hfirst, hahead⟩ := ih budget (by omega) hahead (.of_punct (by decide))
  obtain ⟨l₂, hcomma, hahead⟩ := hahead.consume (by decide)
  obtain ⟨l₃, hmore, hahead⟩ := ihs budget (by omega) hahead hstops
  refine ⟨l₃, ?_, hahead⟩
  rw [Parsing.expr, Parsing.bind_of_ok hfirst, Parsing.bind_of_ok hcomma]
  simp only [if_true]
  rw [Parsing.bind_of_ok hmore]
  rfl

theorem lastItem (ih : Phrase.Accepted (.ternary e) o T) : Phrase.Accepted (.items [e]) true T := by
  intro budget rest l hbudget hahead hstops
  obtain ⟨budget, rfl⟩ : ∃ b, budget = b + 1 := ⟨budget - 1, by omega⟩
  have hsub : ternarySymbols o ⊆ exprSymbols := by cases o <;> decide
  obtain ⟨l₁, hfirst, hahead⟩ := ih budget (by omega) hahead (hstops.mono hsub)
  obtain ⟨l₂, hcomma, hahead⟩ := hahead.consume_other ',' (by decide) (hstops.ne_punct (by decide)) nofun
  refine ⟨l₂, ?_, hahead⟩
  rw [Parsing.ternaries, Parsing.bind_of_ok hfirst, Parsing.bind_of_ok hcomma]
  rfl

theorem moreItems (ih : Phrase.Accepted (.ternary e) false T)
    (ihs : Phrase.Accepted (.items es) true U) :
    Phrase.Accepted (.items (e :: es)) true (T ++ .punct ',' :: U) := by
  intro budget rest l hbudget hahead hstops
  simp only [List.length_append, List.length_cons] at hbudget
  obtain ⟨budget, rfl⟩ : ∃ b, budget = b + 1 := ⟨budget - 1, by omega⟩
  rw [List.append_assoc, List.cons_append] at hahead
  obtain ⟨l₁, hfirst, hahead⟩ := ih budget (by omega) hahead (.of_punct (by decide))
  obtain ⟨l₂, hcomma, hahead⟩ := hahead.consume (by decide)
  obtain ⟨l₃, hmore, hahead⟩ := ihs budget (by omega) hahead hstops
  refine ⟨l₃, ?_, hahead⟩
  rw [Parsing.ternaries, Parsing.bind_of_ok hfirst, Parsing.bind_of_ok hcomma]
  simp only [if_true]
  rw [Parsing.bind_of_ok hmore]
  rfl

theorem unassigned (ih : Phrase.Accepted (.ternary e) o T) : Phrase.Accepted (.assignment e) o T := by
  intro budget rest l hbudget hahead hstops
  obtain ⟨budget, rfl⟩ : ∃ b, budget = b + 1 := ⟨budget - 1, by omega⟩
  obtain ⟨l₀, hadvance, hahead⟩ := hahead.advance
  have hsub : ternarySymbols o ⊆ assignmentSymbols o := by cases o <;> decide
  obtain ⟨l₁, htarget, hahead⟩ := ih budget (by omega) hahead (hstops.mono hsub)
  have hne : ∀ s ∈ OperatorGroup.assignment.builtIn, rest.head? ≠ some (.symbol s) := by
    intro s hs
    obtain rfl := List.mem_singleton.1 hs
    exact hstops.ne_symbol (by cases o <;> decide)
  obtain ⟨l₂, hsymbol, hahead⟩ := hahead.consumeSymbol?_other .assignment nofun hne
  refine ⟨l₂, ?_, hahead⟩
  rw [Parsing.assignment, Parsing.bind_of_ok hadvance, Parsing.bind_of_ok (Parsing.get_apply l₀),
    Parsing.bind_of_ok htarget, Parsing.bind_of_ok hsymbol]
  rfl

theorem assigned (ih : Phrase.Accepted (.ternary target) false T) (hw : target.isWritable = true)
    (ihv : Phrase.Accepted (.assignment value) o U) :
    Phrase.Accepted (.assignment (.assign target value)) o (T ++ .symbol "=" :: U) := by
  intro budget rest l hbudget hahead hstops
  simp only [List.length_append, List.length_cons] at hbudget
  obtain ⟨budget, rfl⟩ : ∃ b, budget = b + 1 := ⟨budget - 1, by omega⟩
  rw [List.append_assoc, List.cons_append] at hahead
  obtain ⟨l₀, hadvance, hahead⟩ := hahead.advance
  obtain ⟨l₁, htarget, hahead⟩ := ih budget (by omega) hahead (.of_symbol (by decide))
  obtain ⟨name, l₂, hsymbol, -, hahead⟩ := hahead.consumeSymbol? .assignment (by decide)
  obtain ⟨l₃, hvalue, hahead⟩ := ihv budget (by omega) hahead hstops
  refine ⟨l₃, ?_, hahead⟩
  rw [Parsing.assignment, Parsing.bind_of_ok hadvance, Parsing.bind_of_ok (Parsing.get_apply l₀),
    Parsing.bind_of_ok htarget, Parsing.bind_of_ok hsymbol]
  simp only [hw, if_true]
  rw [Parsing.bind_of_ok hvalue]
  rfl

/-! ### Ternaries and operators -/

theorem untested (ih : Phrase.Accepted (.chain Level.all e) false T) :
    Phrase.Accepted (.ternary e) false T := by
  intro budget rest l hbudget hahead hstops
  obtain ⟨budget, rfl⟩ : ∃ b, budget = b + 1 := ⟨budget - 1, by omega⟩
  have hcost : 3 + Level.all.length = 9 := rfl
  have hsub : chainSymbols Level.all ⊆ ternarySymbols false := by decide
  obtain ⟨l₁, htest, hahead⟩ := ih (List.suffix_refl _) budget (by omega) hahead (hstops.mono hsub)
  obtain ⟨l₂, hmark, hahead⟩ := hahead.consume_other '?' (by decide)
    (hstops.ne_punct (by decide)) nofun
  refine ⟨l₂, ?_, hahead⟩
  rw [Parsing.ternary, Parsing.bind_of_ok htest, Parsing.bind_of_ok hmark]
  rfl

theorem tested (ih : Phrase.Accepted (.chain Level.all test) false T)
    (ihc : Phrase.Accepted (.expr consequent) true U)
    (iha : Phrase.Accepted (.expr alternate) true V) :
    Phrase.Accepted (.ternary (.ternary test consequent alternate)) true
      (T ++ .punct '?' :: (U ++ .punct ':' :: V)) := by
  intro budget rest l hbudget hahead hstops
  simp only [List.length_append, List.length_cons] at hbudget
  obtain ⟨budget, rfl⟩ : ∃ b, budget = b + 1 := ⟨budget - 1, by omega⟩
  simp only [List.append_assoc, List.cons_append] at hahead
  have hcost : 3 + Level.all.length = 9 := rfl
  have hsub : exprSymbols ⊆ ternarySymbols true := by decide
  obtain ⟨l₁, htest, hahead⟩ := ih (List.suffix_refl _) budget (by omega) hahead
    (.of_punct (by decide))
  obtain ⟨l₂, hmark, hahead⟩ := hahead.consume (by decide)
  obtain ⟨l₃, hconsequent, hahead⟩ := ihc budget (by omega) hahead (.of_punct (by decide))
  obtain ⟨l₄, hcolon, hahead⟩ := hahead.expect (by decide)
  obtain ⟨l₅, halternate, hahead⟩ := iha budget (by omega) hahead (hstops.mono hsub)
  refine ⟨l₅, ?_, hahead⟩
  rw [Parsing.ternary, Parsing.bind_of_ok htest, Parsing.bind_of_ok hmark]
  simp only [if_true]
  rw [Parsing.bind_of_ok hconsequent, Parsing.bind_of_ok hcolon, Parsing.bind_of_ok halternate]
  rfl

theorem operand (ih : Phrase.Accepted (.unary e) false T) :
    Phrase.Accepted (.chain [] e) false T := by
  intro _ budget rest l hbudget hahead hstops
  obtain ⟨budget, rfl⟩ : ∃ b, budget = b + 1 := ⟨budget - 1, by omega⟩
  exact ih budget (by simp only [List.length_nil] at hbudget; omega) hahead hstops

/-- Behind an operand comes an operator of the level, or what follows the whole chain. -/
theorem stops_chainRest {greedy : Bool} {level : Level} {tighter : List Level} {rest : List Piece}
    (h : Derives greedy (.chainRest level tighter left e) o U) (hlevels : level :: tighter <:+ Level.all)
    (hstops : Stops (chainSymbols (level :: tighter)) rest) :
    Stops (chainSymbols tighter) (U ++ rest) := by
  cases h with
  | restDone =>
    refine hstops.mono fun s hs => ?_
    simp only [chainSymbols, List.flatMap_cons, List.append_assoc, List.mem_append] at hs ⊢
    exact .inr hs
  | restMore hs => exact .of_symbol (not_mem_chainSymbols hlevels hs)

theorem level {greedy : Bool} {level : Level} {tighter : List Level}
    (hr : Derives greedy (.chainRest level tighter left e) false U)
    (ih : Phrase.Accepted (.chain tighter left) false T)
    (ihr : Phrase.Accepted (.chainRest level tighter left e) false U) :
    Phrase.Accepted (.chain (level :: tighter) e) false (T ++ U) := by
  intro hlevels budget rest l hbudget hahead hstops
  simp only [List.length_append, List.length_cons] at hbudget
  obtain ⟨budget, rfl⟩ : ∃ b, budget = b + 1 := ⟨budget - 1, by omega⟩
  rw [List.append_assoc] at hahead
  have htighter : tighter <:+ Level.all := (List.suffix_cons level tighter).trans hlevels
  obtain ⟨l₁, hleft, hahead⟩ := ih htighter budget (by omega) hahead
    (stops_chainRest hr hlevels hstops)
  obtain ⟨l₂, hrest, hahead⟩ := ihr hlevels budget (by omega) hahead hstops
  refine ⟨l₂, ?_, hahead⟩
  show Parsing.chain (budget + 1) (level :: tighter) l = _
  rw [Parsing.chain, Parsing.bind_of_ok hleft]
  exact hrest

theorem restDone {level : Level} {tighter : List Level} :
    Phrase.Accepted (.chainRest level tighter e e) false [] := by
  intro hlevels budget rest l hbudget hahead hstops
  obtain ⟨budget, rfl⟩ : ∃ b, budget = b + 1 := ⟨budget - 1, by omega⟩
  have hne : ∀ s ∈ level.symbols, rest.head? ≠ some (.symbol s) := by
    intro s hs
    refine hstops.ne_symbol ?_
    simp only [chainSymbols, List.flatMap_cons, List.mem_append]
    exact .inl (.inl hs)
  obtain ⟨l₁, hjoin, hahead⟩ := hahead.operator?_other hne
  refine ⟨l₁, ?_, hahead⟩
  show Parsing.chainRest (budget + 1) level tighter e l = _
  rw [Parsing.chainRest, Parsing.bind_of_ok hjoin]
  rfl

theorem restMore {greedy : Bool} {level : Level} {tighter : List Level} {symbol : String}
    (hs : symbol ∈ level.symbols)
    (hr : Derives greedy (.chainRest level tighter (level.join symbol left right) e) false U)
    (ih : Phrase.Accepted (.chain tighter right) false T)
    (ihr : Phrase.Accepted (.chainRest level tighter (level.join symbol left right) e) false U) :
    Phrase.Accepted (.chainRest level tighter left e) false (.symbol symbol :: (T ++ U)) := by
  intro hlevels budget rest l hbudget hahead hstops
  simp only [List.length_append, List.length_cons] at hbudget
  obtain ⟨budget, rfl⟩ : ∃ b, budget = b + 1 := ⟨budget - 1, by omega⟩
  rw [List.cons_append, List.append_assoc] at hahead
  have htighter : tighter <:+ Level.all := (List.suffix_cons level tighter).trans hlevels
  have hlength : tighter.length ≤ 6 := htighter.length_le
  obtain ⟨l₁, hjoin, hahead⟩ := hahead.operator? hs
  obtain ⟨l₂, hright, hahead⟩ := ih htighter budget (by omega) hahead
    (stops_chainRest hr hlevels hstops)
  obtain ⟨l₃, hrest, hahead⟩ := ihr hlevels budget (by omega) hahead hstops
  refine ⟨l₃, ?_, hahead⟩
  show Parsing.chainRest (budget + 1) level tighter left l = _
  rw [Parsing.chainRest, Parsing.bind_of_ok hjoin]
  simp only
  rw [Parsing.bind_of_ok hright]
  exact hrest

theorem signed {symbol : String} (hs : symbol ∈ OperatorGroup.unary.builtIn)
    (ih : Phrase.Accepted (.unary e) false T) :
    Phrase.Accepted (.unary (.unary (.ofSymbol symbol) e)) false (.symbol symbol :: T) := by
  intro budget rest l hbudget hahead hstops
  simp only [List.length_cons] at hbudget
  obtain ⟨budget, rfl⟩ : ∃ b, budget = b + 1 := ⟨budget - 1, by omega⟩
  obtain ⟨name, l₁, hsymbol, hname, hahead⟩ := hahead.consumeSymbol? .unary hs
  obtain ⟨l₂, hoperand, hahead⟩ := ih budget (by omega) hahead hstops
  refine ⟨l₂, ?_, hahead⟩
  rw [Parsing.unary, Parsing.bind_of_ok hsymbol]
  simp only
  rw [Parsing.bind_of_ok hoperand, hname]
  rfl

/-- No primary starts with a unary operator. -/
theorem ne_unary {p : Piece} {s : String} (hp : p.StartsPrimary)
    (hs : s ∈ OperatorGroup.unary.builtIn) : p ≠ .symbol s := by
  rintro rfl
  rcases hp with hp | hp
  · cases hp
  · revert s
    decide

theorem unsigned {greedy : Bool} {head : Expr} (h : Derives greedy (.primary head) false T)
    (ih : Phrase.Accepted (.primary head) false T)
    (ihp : Phrase.Accepted (.postfixes head e) false U) :
    Phrase.Accepted (.unary e) false (T ++ U) := by
  intro budget rest l hbudget hahead hstops
  simp only [List.length_append] at hbudget
  obtain ⟨budget, rfl⟩ : ∃ b, budget = b + 1 := ⟨budget - 1, by omega⟩
  rw [List.append_assoc] at hahead
  obtain ⟨p, V, rfl, hp⟩ := h.starts rfl
  have hne : ∀ s ∈ OperatorGroup.unary.builtIn, (p :: V ++ (U ++ rest)).head? ≠ some (.symbol s) :=
    fun s hs hhead => ne_unary hp hs (Option.some.inj hhead)
  obtain ⟨l₁, hsymbol, hahead⟩ := hahead.consumeSymbol?_other .unary nofun hne
  obtain ⟨l₂, hhead, hahead⟩ := ih budget (by omega) hahead trivial
  obtain ⟨l₃, hpostfixes, hahead⟩ := ihp budget (by omega) hahead hstops
  refine ⟨l₃, ?_, hahead⟩
  rw [Parsing.unary, Parsing.bind_of_ok hsymbol]
  simp only
  rw [Parsing.bind_of_ok hhead]
  exact hpostfixes

/-! ### Postfixes and primaries -/

theorem postfixesDone : Phrase.Accepted (.postfixes e e) false [] := by
  intro budget rest l hbudget hahead hstops
  obtain ⟨budget, rfl⟩ : ∃ b, budget = b + 1 := ⟨budget - 1, by omega⟩
  obtain ⟨l₁, hcall, hahead⟩ := hahead.consume_other '(' (by decide)
    (hstops.ne_punct (by decide)) nofun
  obtain ⟨l₂, hindex, hahead⟩ := hahead.consume_other '[' (by decide)
    (hstops.ne_punct (by decide)) nofun
  obtain ⟨l₃, hmember, hahead⟩ := hahead.consume_other '.' (by decide)
    (hstops.ne_punct (by decide)) fun _ => hstops.isSymbol
  refine ⟨l₃, ?_, hahead⟩
  show Parsing.postfixes (budget + 1) e l = _
  rw [Parsing.postfixes, Parsing.bind_of_ok hcall]
  simp only [Bool.false_eq_true, if_false]
  rw [Parsing.bind_of_ok hindex]
  simp only [Bool.false_eq_true, if_false]
  rw [Parsing.bind_of_ok hmember]
  rfl

theorem called {callee : Expr} {args : List Expr} (ih : Phrase.Accepted (.elements args) false T)
    (ihp : Phrase.Accepted (.postfixes (.call callee args) e) false U) :
    Phrase.Accepted (.postfixes callee e) false (.punct '(' :: (T ++ .punct ')' :: U)) := by
  intro budget rest l hbudget hahead hstops
  simp only [List.length_append, List.length_cons] at hbudget
  obtain ⟨budget, rfl⟩ : ∃ b, budget = b + 1 := ⟨budget - 1, by omega⟩
  simp only [List.append_assoc, List.cons_append] at hahead
  obtain ⟨l₁, hcall, hahead⟩ := hahead.consume (by decide)
  obtain ⟨l₂, hargs, hahead⟩ := ih ')' (by decide) budget (by omega) hahead rfl
  obtain ⟨l₃, hclose, hahead⟩ := hahead.expect (by decide)
  obtain ⟨l₄, hpostfixes, hahead⟩ := ihp budget (by omega) hahead hstops
  refine ⟨l₄, ?_, hahead⟩
  show Parsing.postfixes (budget + 1) callee l = _
  rw [Parsing.postfixes, Parsing.bind_of_ok hcall]
  simp only [if_true]
  rw [Parsing.bind_of_ok hargs, Parsing.bind_of_ok hclose]
  exact hpostfixes

theorem indexed {object key : Expr} (ih : Phrase.Accepted (.expr key) true T)
    (ihp : Phrase.Accepted (.postfixes (.index object key) e) false U) :
    Phrase.Accepted (.postfixes object e) false (.punct '[' :: (T ++ .punct ']' :: U)) := by
  intro budget rest l hbudget hahead hstops
  simp only [List.length_append, List.length_cons] at hbudget
  obtain ⟨budget, rfl⟩ : ∃ b, budget = b + 1 := ⟨budget - 1, by omega⟩
  simp only [List.append_assoc, List.cons_append] at hahead
  obtain ⟨l₁, hcall, hahead⟩ := hahead.consume_other '(' (by decide) (head?_ne_punct (by decide)) nofun
  obtain ⟨l₂, hindex, hahead⟩ := hahead.consume (by decide)
  obtain ⟨l₃, hkey, hahead⟩ := ih budget (by omega) hahead (.of_punct (by decide))
  obtain ⟨l₄, hclose, hahead⟩ := hahead.expect (by decide)
  obtain ⟨l₅, hpostfixes, hahead⟩ := ihp budget (by omega) hahead hstops
  refine ⟨l₅, ?_, hahead⟩
  show Parsing.postfixes (budget + 1) object l = _
  rw [Parsing.postfixes, Parsing.bind_of_ok hcall]
  simp only [Bool.false_eq_true, if_false]
  rw [Parsing.bind_of_ok hindex]
  simp only [if_true]
  rw [Parsing.bind_of_ok hkey, Parsing.bind_of_ok hclose]
  exact hpostfixes

theorem selected {object : Expr} {name : String} (hn : isKeyword name = false)
    (ihp : Phrase.Accepted (.postfixes (.member object name) e) false U) :
    Phrase.Accepted (.postfixes object e) false (.punct '.' :: .identifier name :: U) := by
  intro budget rest l hbudget hahead hstops
  simp only [List.length_cons] at hbudget
  obtain ⟨budget, rfl⟩ : ∃ b, budget = b + 1 := ⟨budget - 1, by omega⟩
  simp only [List.cons_append] at hahead
  obtain ⟨l₁, hcall, hahead⟩ := hahead.consume_other '(' (by decide) (head?_ne_punct (by decide)) nofun
  obtain ⟨l₂, hindex, hahead⟩ := hahead.consume_other '[' (by decide) (head?_ne_punct (by decide)) nofun
  obtain ⟨l₃, hmember, hahead⟩ := hahead.consume (by decide)
  obtain ⟨l₄, hname, hahead⟩ := hahead.memberName hn
  obtain ⟨l₅, hpostfixes, hahead⟩ := ihp budget (by omega) hahead hstops
  refine ⟨l₅, ?_, hahead⟩
  show Parsing.postfixes (budget + 1) object l = _
  rw [Parsing.postfixes, Parsing.bind_of_ok hcall]
  simp only [Bool.false_eq_true, if_false]
  rw [Parsing.bind_of_ok hindex]
  simp only [Bool.false_eq_true, if_false]
  rw [Parsing.bind_of_ok hmember]
  simp only [if_true]
  rw [Parsing.bind_of_ok hname]
  exact hpostfixes

theorem group (ih : Phrase.Accepted (.expr e) true T) :
    Phrase.Accepted (.primary e) false (.punct '(' :: (T ++ [.punct ')'])) := by
  intro budget rest l hbudget hahead _
  simp only [List.length_append, List.length_cons, List.length_nil] at hbudget
  obtain ⟨budget, rfl⟩ : ∃ b, budget = b + 1 := ⟨budget - 1, by omega⟩
  simp only [List.append_assoc, List.cons_append] at hahead
  obtain ⟨l₁, hopen, hahead⟩ := hahead.consume (by decide)
  obtain ⟨l₂, hinner, hahead⟩ := ih budget (by omega) hahead (.of_punct (by decide))
  obtain ⟨l₃, hclose, hahead⟩ := hahead.expect (by decide)
  refine ⟨l₃, ?_, hahead⟩
  rw [Parsing.primary, Parsing.bind_of_ok hopen]
  simp only [if_true]
  rw [Parsing.bind_of_ok hinner, Parsing.bind_of_ok hclose]
  rfl

theorem array (ih : Phrase.Accepted (.elements es) false T) :
    Phrase.Accepted (.primary (.array es)) false (.punct '[' :: (T ++ [.punct ']'])) := by
  intro budget rest l hbudget hahead _
  simp only [List.length_append, List.length_cons, List.length_nil] at hbudget
  obtain ⟨budget, rfl⟩ : ∃ b, budget = b + 1 := ⟨budget - 1, by omega⟩
  simp only [List.append_assoc, List.cons_append] at hahead
  obtain ⟨l₁, hparen, hahead⟩ := hahead.consume_other '(' (by decide) (head?_ne_punct (by decide)) nofun
  obtain ⟨l₂, hopen, hahead⟩ := hahead.consume (by decide)
  obtain ⟨l₃, hes, hahead⟩ := ih ']' (by decide) budget (by omega) hahead rfl
  obtain ⟨l₄, hclose, hahead⟩ := hahead.expect (by decide)
  refine ⟨l₄, ?_, hahead⟩
  rw [Parsing.primary, Parsing.bind_of_ok hparen]
  simp only [Bool.false_eq_true, if_false]
  rw [Parsing.bind_of_ok hopen]
  simp only [if_true]
  rw [Parsing.bind_of_ok hes, Parsing.bind_of_ok hclose]
  rfl

theorem object {ps : List Property} (ih : Phrase.Accepted (.properties ps) false T) :
    Phrase.Accepted (.primary (.object ps)) false (.punct '\x7b' :: (T ++ [.punct '\x7d'])) := by
  intro budget rest l hbudget hahead _
  simp only [List.length_append, List.length_cons, List.length_nil] at hbudget
  obtain ⟨budget, rfl⟩ : ∃ b, budget = b + 1 := ⟨budget - 1, by omega⟩
  simp only [List.append_assoc, List.cons_append] at hahead
  obtain ⟨l₁, hparen, hahead⟩ := hahead.consume_other '(' (by decide) (head?_ne_punct (by decide)) nofun
  obtain ⟨l₂, hlist, hahead⟩ := hahead.consume_other '[' (by decide) (head?_ne_punct (by decide)) nofun
  obtain ⟨l₃, hopen, hahead⟩ := hahead.consume (by decide)
  obtain ⟨l₄, hps, hahead⟩ := ih budget (by omega) hahead rfl
  obtain ⟨l₅, hclose, hahead⟩ := hahead.expect (by decide)
  refine ⟨l₅, ?_, hahead⟩
  rw [Parsing.primary, Parsing.bind_of_ok hparen]
  simp only [Bool.false_eq_true, if_false]
  rw [Parsing.bind_of_ok hlist]
  simp only [Bool.false_eq_true, if_false]
  rw [Parsing.bind_of_ok hopen]
  simp only [if_true]
  rw [Parsing.bind_of_ok hps, Parsing.bind_of_ok hclose]
  rfl

theorem token {p : Piece} (h : p.expr? = some e) : Phrase.Accepted (.primary e) false [p] := by
  intro budget rest l hbudget hahead _
  obtain ⟨budget, rfl⟩ : ∃ b, budget = b + 1 := ⟨budget - 1, by omega⟩
  have hne (c : Char) : ([p] ++ rest).head? ≠ some (.punct c) := by
    intro hhead
    obtain rfl := Option.some.inj hhead
    cases h
  obtain ⟨l₁, hparen, hahead⟩ := hahead.consume_other '(' (by decide) (hne _) nofun
  obtain ⟨l₂, hlist, hahead⟩ := hahead.consume_other '[' (by decide) (hne _) nofun
  obtain ⟨l₃, hbrace, hahead⟩ := hahead.consume_other '\x7b' (by decide) (hne _) nofun
  obtain ⟨t, l₄, htoken, rfl, hahead⟩ := hahead.nextToken?
  refine ⟨l₄, ?_, ‹_›⟩
  rw [Parsing.primary, Parsing.bind_of_ok hparen]
  simp only [Bool.false_eq_true, if_false]
  rw [Parsing.bind_of_ok hlist]
  simp only [Bool.false_eq_true, if_false]
  rw [Parsing.bind_of_ok hbrace]
  simp only [Bool.false_eq_true, if_false]
  rw [Parsing.bind_of_ok htoken]
  exact Parsing.ofToken_eq_ok.2 ⟨h, rfl⟩

/-! ### Lists and object literals -/

/-- No expression starts with a comma or a closing character. -/
theorem ne_of_startsExpr {p : Piece} {c : Char} (hp : p.StartsExpr) (hc : c ∈ [',', ')', ']', '\x7d']) :
    p ≠ .punct c := by
  rintro rfl
  rcases hp with (hp | hp) | ⟨s, hs, hp⟩
  · cases hp
  · have hother : ∀ c ∈ [',', ')', ']', '\x7d'], Piece.punct c ∉
        [Piece.punct '(', .punct '[', .punct '\x7b'] := forall_mem_of_all (by decide)
    exact hother c hc hp
  · have hp : c.toString = s := congrArg Piece.text hp
    subst hp
    have hother : ∀ c ∈ [',', ')', ']', '\x7d'], c.toString ∉ OperatorGroup.unary.builtIn :=
      forall_mem_of_all (by decide)
    exact hother c hc hs

theorem ne_of_startsProperty {p : Piece} {c : Char} (hp : p.StartsProperty)
    (hc : c ∈ [',', ')', ']', '\x7d']) : p ≠ .punct c := by
  rintro rfl
  rcases hp with hp | hp
  · have hother : ∀ c ∈ [',', ')', ']', '\x7d'], Piece.punct c ≠ .punct '[' :=
      forall_mem_of_all (by decide)
    exact hother c hc hp
  · exact hp rfl

/-- What the closing characters of lists have in common. -/
theorem close_spec {close : Char} (h : close ∈ [')', ']']) :
    close ∈ punctuation ∧ close ≠ '.' ∧ close ≠ ',' ∧ close ∈ [',', ')', ']', '\x7d'] ∧
      ∀ o, close.toString ∉ assignmentSymbols o := by
  simp only [List.mem_cons, List.not_mem_nil, or_false] at h
  rcases h with rfl | rfl <;> decide

theorem noElements : Phrase.Accepted (.elements []) false [] := by
  intro close hclose budget rest l hbudget hahead hrest
  obtain ⟨budget, rfl⟩ : ∃ b, budget = b + 1 := ⟨budget - 1, by omega⟩
  have hpunct := close_spec hclose
  obtain ⟨d, l₁, hpeek, hahead, -, hd⟩ := hahead.peek?
  obtain rfl := (hd close hpunct.1 hpunct.2.1).2 hrest
  refine ⟨l₁, ?_, hahead⟩
  show Parsing.elements (budget + 1) close l = _
  rw [Parsing.elements, Parsing.bind_of_ok hpeek]
  simp only [if_true]
  rfl

/-- The first token of slots that are not empty is a comma or starts an expression. -/
theorem starts_slots {greedy : Bool} (h : Derives greedy (.slots es) o T) (hne : T ≠ []) :
    ∃ p U, T = p :: U ∧ (p = .punct ',' ∨ p.StartsExpr) := by
  cases h with
  | lastSlot h =>
    cases h with
    | emptySlot => exact absurd rfl hne
    | filledSlot h =>
      obtain ⟨p, U, rfl, hp⟩ := h.starts rfl
      exact ⟨p, U, rfl, .inr hp⟩
  | moreSlots h =>
    cases h with
    | emptySlot => exact ⟨_, _, rfl, .inl rfl⟩
    | filledSlot h =>
      obtain ⟨p, U, rfl, hp⟩ := h.starts rfl
      exact ⟨p, _, rfl, .inr hp⟩

theorem someElements {greedy : Bool} (h : Derives greedy (.slots es) false T) (hne : T ≠ [])
    (ih : Phrase.Accepted (.slots es) false T) : Phrase.Accepted (.elements es) false T := by
  intro close hclose budget rest l hbudget hahead hrest
  obtain ⟨budget, rfl⟩ : ∃ b, budget = b + 1 := ⟨budget - 1, by omega⟩
  have hpunct := close_spec hclose
  obtain ⟨p, U, rfl, hp⟩ := starts_slots h hne
  obtain ⟨d, l₁, hpeek, hahead, hend, hd⟩ := hahead.peek?
  have hnot : d ≠ some close := by
    intro heq
    have hhead := Option.some.inj ((hd close hpunct.1 hpunct.2.1).1 heq)
    rcases hp with rfl | hp
    · exact toString_ne hpunct.2.2.1.symm (congrArg Piece.text hhead)
    · exact ne_of_startsExpr hp hpunct.2.2.2.1 hhead
  obtain ⟨l₂, hslots, hahead⟩ := ih close hclose budget (by omega) hahead hrest
  refine ⟨l₂, ?_, hahead⟩
  show Parsing.elements (budget + 1) close l = _
  rw [Parsing.elements, Parsing.bind_of_ok hpeek]
  cases d with
  | none => cases hend rfl
  | some c =>
    simp only [if_neg fun h : c = close => hnot (congrArg some h)]
    exact hslots

/-- A slot is read before a comma or the closing character. -/
theorem slot_runs {close : Char} (budget : Nat) {rest : List Piece} {l : Lexer} {β : Type}
    (hclose : close ∈ [')', ']']) (ih : Phrase.Accepted (.slot e) o T)
    (hbudget : 16 * T.length + 11 ≤ budget) (hahead : l.Ahead (T ++ rest))
    (hstops : Stops (assignmentSymbols o) rest)
    (hrest : rest.head? = some (.punct ',') ∨ rest.head? = some (.punct close))
    (next : Expr → Parsing β) :
    ∃ d l₁ l₂, Parsing.peek? l = .ok (d, l₁) ∧ l₂.Ahead rest ∧
      (if d = some ',' ∨ d = some close then pure (.literal .undefined) >>= next
        else Parsing.assignment budget >>= next) l₁ = next e l₂ := by
  have hpunct := close_spec hclose
  obtain ⟨d, l₁, hpeek, hahead, -, hd⟩ := hahead.peek?
  have hcomma := hd ',' (by decide) (by decide)
  have hend := hd close hpunct.1 hpunct.2.1
  rcases ih with ⟨rfl, rfl⟩ | ⟨⟨p, U, rfl, hp⟩, hrun⟩
  · refine ⟨d, l₁, l₁, hpeek, hahead, ?_⟩
    rw [if_pos (hrest.imp hcomma.2 hend.2), pure_bind]
  · have hnot : ¬ (d = some ',' ∨ d = some close) := by
      rintro (heq | heq)
      · exact ne_of_startsExpr hp (by decide) (Option.some.inj (hcomma.1 heq))
      · exact ne_of_startsExpr hp hpunct.2.2.2.1 (Option.some.inj (hend.1 heq))
    obtain ⟨l₂, he, hahead⟩ := hrun budget hbudget hahead hstops
    refine ⟨d, l₁, l₂, hpeek, hahead, ?_⟩
    rw [if_neg hnot, Parsing.bind_of_ok he]

theorem stops_of_close {close : Char} {symbols : List String} {rest : List Piece}
    (hrest : rest.head? = some (.punct close)) (hc : close.toString ∉ symbols) : Stops symbols rest := by
  intro p hp
  obtain rfl := Option.some.inj (hrest.symm.trans hp)
  exact ⟨rfl, hc⟩

theorem lastSlot (ih : Phrase.Accepted (.slot e) o T) : Phrase.Accepted (.slots [e]) false T := by
  intro close hclose budget rest l hbudget hahead hrest
  obtain ⟨budget, rfl⟩ : ∃ b, budget = b + 1 := ⟨budget - 1, by omega⟩
  have hpunct := close_spec hclose
  obtain ⟨d, l₁, l₂, hpeek, hahead, hslot⟩ := slot_runs budget hclose ih (by omega) hahead
    (stops_of_close hrest (hpunct.2.2.2.2 o)) (.inr hrest) _
  have hne : rest.head? ≠ some (.punct ',') := by
    intro hhead
    rw [hrest] at hhead
    exact toString_ne hpunct.2.2.1 (congrArg Piece.text (Option.some.inj hhead))
  obtain ⟨l₃, hcomma, hahead⟩ := hahead.consume_other ',' (by decide) hne nofun
  refine ⟨l₃, ?_, hahead⟩
  show Parsing.elementsRest (budget + 1) close l = _
  rw [Parsing.elementsRest, Parsing.bind_of_ok hpeek]
  refine (hslot.trans (Parsing.bind_of_ok hcomma)).trans ?_
  rfl

theorem moreSlots (ih : Phrase.Accepted (.slot e) false T)
    (ihs : Phrase.Accepted (.slots es) false U) :
    Phrase.Accepted (.slots (e :: es)) false (T ++ .punct ',' :: U) := by
  intro close hclose budget rest l hbudget hahead hrest
  simp only [List.length_append, List.length_cons] at hbudget
  obtain ⟨budget, rfl⟩ : ∃ b, budget = b + 1 := ⟨budget - 1, by omega⟩
  rw [List.append_assoc, List.cons_append] at hahead
  obtain ⟨d, l₁, l₂, hpeek, hahead, hslot⟩ := slot_runs budget hclose ih (by omega) hahead
    (.of_punct (by decide)) (.inl rfl) _
  obtain ⟨l₃, hcomma, hahead⟩ := hahead.consume (by decide)
  obtain ⟨l₄, hmore, hahead⟩ := ihs close hclose budget (by omega) hahead hrest
  refine ⟨l₄, ?_, hahead⟩
  show Parsing.elementsRest (budget + 1) close l = _
  rw [Parsing.elementsRest, Parsing.bind_of_ok hpeek]
  refine (hslot.trans (Parsing.bind_of_ok hcomma)).trans ?_
  simp only [if_true]
  rw [Parsing.bind_of_ok hmore]
  rfl

theorem noProperties : Phrase.Accepted (.properties []) false [] := by
  intro budget rest l hbudget hahead hrest
  obtain ⟨budget, rfl⟩ : ∃ b, budget = b + 1 := ⟨budget - 1, by omega⟩
  obtain ⟨d, l₁, hpeek, hahead, -, hd⟩ := hahead.peek?
  obtain rfl := (hd '\x7d' (by decide) (by decide)).2 hrest
  refine ⟨l₁, ?_, hahead⟩
  rw [Parsing.properties, Parsing.bind_of_ok hpeek]
  rfl

/-- Places without a token hold no property; others start with a comma or a property. -/
theorem starts_places {greedy : Bool} {ps : List Property} (h : Derives greedy (.places ps) o T) :
    (T = [] ∧ ps = []) ∨ ∃ p U, T = p :: U ∧ (p = .punct ',' ∨ p.StartsProperty) := by
  cases h with
  | lastPlace h =>
    cases h with
    | emptyPlace => exact .inl ⟨rfl, rfl⟩
    | filledPlace h =>
      obtain ⟨p, U, rfl, hp⟩ := h.starts rfl
      exact .inr ⟨p, U, rfl, .inr hp⟩
  | morePlaces h =>
    cases h with
    | emptyPlace => exact .inr ⟨_, _, rfl, .inl rfl⟩
    | filledPlace h =>
      obtain ⟨p, U, rfl, hp⟩ := h.starts rfl
      exact .inr ⟨p, _, rfl, .inr hp⟩

theorem someProperties {greedy : Bool} {ps : List Property} (h : Derives greedy (.places ps) false T)
    (ih : Phrase.Accepted (.places ps) false T) : Phrase.Accepted (.properties ps) false T := by
  rcases starts_places h with ⟨rfl, rfl⟩ | ⟨p, U, rfl, hp⟩
  · exact noProperties
  intro budget rest l hbudget hahead hrest
  obtain ⟨budget, rfl⟩ : ∃ b, budget = b + 1 := ⟨budget - 1, by omega⟩
  obtain ⟨d, l₁, hpeek, hahead, hend, hd⟩ := hahead.peek?
  have hnot : d ≠ some '\x7d' := by
    intro heq
    have hhead := Option.some.inj ((hd '\x7d' (by decide) (by decide)).1 heq)
    rcases hp with rfl | hp
    · revert hhead
      decide
    · exact ne_of_startsProperty hp (by decide) hhead
  obtain ⟨l₂, hplaces, hahead⟩ := ih budget (by omega) hahead hrest
  refine ⟨l₂, ?_, hahead⟩
  rw [Parsing.properties, Parsing.bind_of_ok hpeek]
  cases d with
  | none => cases hend rfl
  | some c =>
    simp only [if_neg fun h : c = '\x7d' => hnot (congrArg some h)]
    exact hplaces

/-- A place is read before a comma or the closing brace. -/
theorem place_runs (budget : Nat) {ps : List Property} {rest : List Piece} {l : Lexer} {β : Type}
    (ih : Phrase.Accepted (.place ps) o T) (hbudget : 16 * T.length + 12 ≤ budget)
    (hahead : l.Ahead (T ++ rest)) (hstops : Stops (":" :: assignmentSymbols o) rest)
    (hrest : rest.head? = some (.punct ',') ∨ rest.head? = some (.punct '\x7d'))
    (next : List Property → Parsing β) :
    ∃ d l₁ l₂, Parsing.peek? l = .ok (d, l₁) ∧ l₂.Ahead rest ∧
      (if d = some ',' ∨ d = some '\x7d' then pure [] >>= next
        else (do return [← Parsing.property budget]) >>= next) l₁ = next ps l₂ := by
  obtain ⟨d, l₁, hpeek, hahead, -, hd⟩ := hahead.peek?
  have hcomma := hd ',' (by decide) (by decide)
  have hend := hd '\x7d' (by decide) (by decide)
  rcases ih with ⟨rfl, rfl⟩ | ⟨p, rfl, ⟨q, U, rfl, hq⟩, hrun⟩
  · refine ⟨d, l₁, l₁, hpeek, hahead, ?_⟩
    rw [if_pos (hrest.imp hcomma.2 hend.2), pure_bind]
  · have hnot : ¬ (d = some ',' ∨ d = some '\x7d') := by
      rintro (heq | heq)
      · exact ne_of_startsProperty hq (by decide) (Option.some.inj (hcomma.1 heq))
      · exact ne_of_startsProperty hq (by decide) (Option.some.inj (hend.1 heq))
    obtain ⟨l₂, hp, hahead⟩ := hrun budget hbudget hahead hstops
    refine ⟨d, l₁, l₂, hpeek, hahead, ?_⟩
    rw [if_neg hnot, bind_assoc, Parsing.bind_of_ok hp, pure_bind]

theorem lastPlace {ps : List Property} (ih : Phrase.Accepted (.place ps) o T) :
    Phrase.Accepted (.places ps) false T := by
  intro budget rest l hbudget hahead hrest
  obtain ⟨budget, rfl⟩ : ∃ b, budget = b + 1 := ⟨budget - 1, by omega⟩
  have hsymbol : '\x7d'.toString ∉ ":" :: assignmentSymbols o := by cases o <;> decide
  obtain ⟨d, l₁, l₂, hpeek, hahead, hplace⟩ := place_runs budget ih (by omega) hahead
    (stops_of_close hrest hsymbol) (.inr hrest) _
  have hne : rest.head? ≠ some (.punct ',') := by
    rw [hrest]
    decide
  obtain ⟨l₃, hcomma, hahead⟩ := hahead.consume_other ',' (by decide) hne nofun
  refine ⟨l₃, ?_, hahead⟩
  rw [Parsing.propertiesRest, Parsing.bind_of_ok hpeek]
  refine (hplace.trans (Parsing.bind_of_ok hcomma)).trans ?_
  rfl

theorem morePlaces {ps qs : List Property} (ih : Phrase.Accepted (.place ps) false T)
    (ihs : Phrase.Accepted (.places qs) false U) :
    Phrase.Accepted (.places (ps ++ qs)) false (T ++ .punct ',' :: U) := by
  intro budget rest l hbudget hahead hrest
  simp only [List.length_append, List.length_cons] at hbudget
  obtain ⟨budget, rfl⟩ : ∃ b, budget = b + 1 := ⟨budget - 1, by omega⟩
  rw [List.append_assoc, List.cons_append] at hahead
  obtain ⟨d, l₁, l₂, hpeek, hahead, hplace⟩ := place_runs budget ih (by omega) hahead
    (.of_punct (by decide)) (.inl rfl) _
  obtain ⟨l₃, hcomma, hahead⟩ := hahead.consume (by decide)
  obtain ⟨l₄, hmore, hahead⟩ := ihs budget (by omega) hahead hrest
  refine ⟨l₄, ?_, hahead⟩
  rw [Parsing.propertiesRest, Parsing.bind_of_ok hpeek]
  refine (hplace.trans (Parsing.bind_of_ok hcomma)).trans ?_
  simp only [if_true]
  rw [Parsing.bind_of_ok hmore]
  rfl

/-! ### Properties -/

/-- A key that is a token is met where no bracket is. -/
theorem key_runs {kind : TokenKind} {text : String} {rest : List Piece} {l : Lexer}
    (hkind : kind ≠ .symbol) (hahead : l.Ahead (⟨kind, text⟩ :: rest)) :
    ∃ l₁ span name l₂, Parsing.consume '[' l = .ok (false, l₁) ∧
      Parsing.ask Lexer.nextToken? l₁ = .ok (some ⟨kind, text, span, name⟩, l₂) ∧ l₂.Ahead rest := by
  have hne : (⟨kind, text⟩ :: rest : List Piece).head? ≠ some (.punct '[') :=
    fun hhead => hkind (congrArg Piece.kind (Option.some.inj hhead))
  obtain ⟨l₁, hbracket, hahead⟩ := hahead.consume_other '[' (by decide) hne nofun
  obtain ⟨⟨kind', text', span, name⟩, l₂, htoken, ht, hahead⟩ := hahead.nextToken?
  obtain ⟨hkind', htext⟩ := Piece.mk.inj ht
  obtain rfl : kind' = kind := hkind'
  obtain rfl : text' = text := htext
  exact ⟨l₁, span, name, l₂, hbracket, htoken, ‹_›⟩

theorem computed {key : Expr} (ihk : Phrase.Accepted (.assignment key) o' T)
    (ihv : Phrase.Accepted (.assignment value) o U) :
    Phrase.Accepted (.property (.computed key value)) o
      (.punct '[' :: (T ++ .punct ']' :: .punct ':' :: U)) := by
  intro budget rest l hbudget hahead hstops
  simp only [List.length_append, List.length_cons] at hbudget
  obtain ⟨budget, rfl⟩ : ∃ b, budget = b + 1 := ⟨budget - 1, by omega⟩
  simp only [List.append_assoc, List.cons_append] at hahead
  have hbracket : ']'.toString ∉ assignmentSymbols o' := by cases o' <;> decide
  obtain ⟨l₁, hopen, hahead⟩ := hahead.consume (by decide)
  obtain ⟨l₂, hkey, hahead⟩ := ihk budget (by omega) hahead (.of_punct hbracket)
  obtain ⟨l₃, hclose, hahead⟩ := hahead.expect (by decide)
  obtain ⟨l₄, hcolon, hahead⟩ := hahead.expect (by decide)
  obtain ⟨l₅, hvalue, hahead⟩ := ihv budget (by omega) hahead
    (hstops.mono (List.subset_cons_self _ _))
  refine ⟨l₅, ?_, hahead⟩
  rw [Parsing.property, Parsing.bind_of_ok hopen]
  simp only [if_true]
  rw [Parsing.bind_of_ok hkey, Parsing.bind_of_ok hclose, Parsing.bind_of_ok hcolon,
    Parsing.bind_of_ok hvalue]
  rfl

theorem constant {kind : ConstantKind} {text : String}
    (ihv : Phrase.Accepted (.assignment value) o U) :
    Phrase.Accepted (.property (.constant kind text value)) o
      (⟨kind.token, text⟩ :: .punct ':' :: U) := by
  intro budget rest l hbudget hahead hstops
  simp only [List.length_cons] at hbudget
  obtain ⟨budget, rfl⟩ : ∃ b, budget = b + 1 := ⟨budget - 1, by omega⟩
  have hkind : kind.token ≠ .symbol := by cases kind <;> decide
  obtain ⟨l₁, span, name, l₂, hbracket, htoken, hahead⟩ := key_runs hkind hahead
  obtain ⟨l₃, hcolon, hahead⟩ := Ahead.expect hahead (by decide)
  obtain ⟨l₄, hvalue, hahead⟩ := ihv budget (by omega) hahead
    (hstops.mono (List.subset_cons_self _ _))
  refine ⟨l₄, ?_, hahead⟩
  rw [Parsing.property, Parsing.bind_of_ok hbracket]
  simp only [Bool.false_eq_true, if_false]
  rw [Parsing.bind_of_ok htoken]
  cases kind with
  | number | string =>
    simp only [ConstantKind.token]
    rw [Parsing.bind_of_ok hcolon, Parsing.bind_of_ok hvalue]
    rfl

theorem named {name : String} (ihv : Phrase.Accepted (.assignment value) o U) :
    Phrase.Accepted (.property (.named name value)) o (.identifier name :: .punct ':' :: U) := by
  intro budget rest l hbudget hahead hstops
  simp only [List.length_cons] at hbudget
  obtain ⟨budget, rfl⟩ : ∃ b, budget = b + 1 := ⟨budget - 1, by omega⟩
  have hkind : TokenKind.identifier ≠ .symbol := nofun
  obtain ⟨l₁, span, interned, l₂, hbracket, htoken, hahead⟩ := key_runs hkind hahead
  obtain ⟨l₃, hcolon, hahead⟩ := Ahead.consume hahead (by decide)
  obtain ⟨l₄, hvalue, hahead⟩ := ihv budget (by omega) hahead
    (hstops.mono (List.subset_cons_self _ _))
  refine ⟨l₄, ?_, hahead⟩
  rw [Parsing.property, Parsing.bind_of_ok hbracket]
  simp only [Bool.false_eq_true, if_false]
  rw [Parsing.bind_of_ok htoken]
  by_cases hkey : isKeyword name = true
  · simp only [hkey, if_true, Parsing.expect, bind_assoc]
    rw [Parsing.bind_of_ok hcolon]
    simp only [Bool.not_true, Bool.false_eq_true, if_false, pure_bind]
    rw [Parsing.bind_of_ok hvalue]
    rfl
  · simp only [hkey, if_false, Bool.false_eq_true]
    rw [Parsing.bind_of_ok hcolon]
    simp only [if_true]
    rw [Parsing.bind_of_ok hvalue]
    rfl

theorem shorthand {name : String} (hn : isKeyword name = false) :
    Phrase.Accepted (.property (.named name (.identifier name))) false [.identifier name] := by
  intro budget rest l hbudget hahead hstops
  obtain ⟨budget, rfl⟩ : ∃ b, budget = b + 1 := ⟨budget - 1, by omega⟩
  have hkind : TokenKind.identifier ≠ .symbol := nofun
  obtain ⟨l₁, span, interned, l₂, hbracket, htoken, hahead⟩ := key_runs hkind hahead
  obtain ⟨l₃, hcolon, hahead⟩ := hahead.consume_other ':' (by decide)
    (hstops.ne_punct (by decide)) nofun
  refine ⟨l₃, ?_, hahead⟩
  rw [Parsing.property, Parsing.bind_of_ok hbracket]
  simp only [Bool.false_eq_true, if_false]
  rw [Parsing.bind_of_ok htoken]
  simp only [hn, if_false, Bool.false_eq_true]
  rw [Parsing.bind_of_ok hcolon]
  rfl

end Accepted

/-- A target that can be assigned to is not hungry. -/
theorem hungry_eq_false_of_isWritable {greedy : Bool} {target : Expr} {o : Bool} {T : List Piece}
    (h : Derives greedy (.ternary target) o T) (hw : target.isWritable = true) : o = false := by
  cases h with
  | untested => rfl
  | tested => cases hw

/-- Every phrase with a greedy derivation is read. -/
theorem Derives.accepted {ph : Phrase} {o : Bool} {T : List Piece} (h : Derives true ph o T) :
    ph.Accepted o T := by
  induction h with
  | single _ ih => exact Accepted.single ih
  | sequence _ ho _ ih ihs =>
    obtain rfl := ho rfl
    exact Accepted.sequence ih ihs
  | lastItem _ ih => exact Accepted.lastItem ih
  | moreItems _ ho _ ih ihs =>
    obtain rfl := ho rfl
    exact Accepted.moreItems ih ihs
  | unassigned _ ih => exact Accepted.unassigned ih
  | assigned h hw _ ih ihv =>
    obtain rfl := hungry_eq_false_of_isWritable h hw
    exact Accepted.assigned ih hw ihv
  | untested _ ih => exact Accepted.untested ih
  | tested _ _ _ ih ihc iha => exact Accepted.tested ih ihc iha
  | operand _ ih => exact Accepted.operand ih
  | level _ hr ih ihr => exact Accepted.level hr ih ihr
  | restDone => exact Accepted.restDone
  | restMore hs _ hr ih ihr => exact Accepted.restMore hs hr ih ihr
  | signed hs _ ih => exact Accepted.signed hs ih
  | unsigned h _ ih ihp => exact Accepted.unsigned h ih ihp
  | postfixesDone => exact Accepted.postfixesDone
  | called _ _ ih ihp => exact Accepted.called ih ihp
  | indexed _ _ ih ihp => exact Accepted.indexed ih ihp
  | selected hn _ ihp => exact Accepted.selected hn ihp
  | group _ ih => exact Accepted.group ih
  | array _ ih => exact Accepted.array ih
  | object _ ih => exact Accepted.object ih
  | token h => exact Accepted.token h
  | noElements => exact Accepted.noElements
  | someElements h hne ih => exact Accepted.someElements h hne ih
  | lastSlot _ ih => exact Accepted.lastSlot ih
  | moreSlots _ ho _ ih ihs =>
    obtain rfl := ho rfl
    exact Accepted.moreSlots ih ihs
  | emptySlot => exact .inl ⟨rfl, rfl⟩
  | filledSlot h ih => exact .inr ⟨h.starts rfl, ih⟩
  | noProperties => exact Accepted.noProperties
  | someProperties h ih => exact Accepted.someProperties h ih
  | lastPlace _ ih => exact Accepted.lastPlace ih
  | morePlaces _ ho _ ih ihs =>
    obtain rfl := ho rfl
    exact Accepted.morePlaces ih ihs
  | emptyPlace => exact .inl ⟨rfl, rfl⟩
  | filledPlace h ih => exact .inr ⟨_, rfl, h.starts rfl, ih⟩
  | computed _ _ ihk ihv => exact Accepted.computed ihk ihv
  | constant _ ihv => exact Accepted.constant ihv
  | named _ ihv => exact Accepted.named ihv
  | shorthand hn => exact Accepted.shorthand hn

/-- There are no more tokens than characters. -/
theorem Lexeme.Reads.length_le {text : List Char} {T : List Piece}
    (h : Reads SymbolTable.builtIn.all text T) : T.length ≤ text.length := by
  induction h with
  | done => exact Nat.zero_le _
  | next hs hl _ ih =>
    have := length_lt_of_lexeme? hl
    have := length_le_of_skipText hs
    simp only [List.length_cons]
    omega

/-- A source is parsed into a tree exactly when it can be tokenized and the tokens have a greedy derivation
of the tree. -/
theorem parse_eq_ok_iff {source : String} {e : Expr} :
    Expr.parse source .builtIn = .ok e ↔
      ∃ T, Reads SymbolTable.builtIn.all source.toList T ∧ Derives true (.expr e) true T := by
  refine ⟨reads_of_parse, ?_⟩
  rintro ⟨T, hreads, hderives⟩
  have hahead : (Lexer.ofSource source .builtIn).Ahead (T ++ []) := by
    rw [List.append_nil, (At.ofSource source .builtIn).ahead_iff]
    exact hreads
  have hbudget : 16 * T.length + 12 ≤ Expr.parseBudget source := by
    have := hreads.length_le
    rw [Expr.parseBudget, ← String.length_toList]
    omega
  obtain ⟨l₁, hexpr, hahead⟩ := hderives.accepted _ hbudget hahead .nil
  obtain ⟨l₂, hmore⟩ := hahead.hasRemaining
  have hwhole : (Parsing.whole (Expr.parseBudget source)).run (.ofSource source .builtIn) =
      .ok (e, l₂) := by
    show Parsing.whole _ _ = _
    rw [Parsing.whole, Parsing.bind_of_ok hexpr, Parsing.bind_of_ok hmore]
    rfl
  rw [Expr.parse, hwhole]
  rfl

/-- The parser accepts exactly the sources whose tokens have a derivation without a hungry item before a
comma, and returns the tree of the derivation. -/
theorem parse_complete (source : String) (e : Expr) :
    Expr.parse source .builtIn = .ok e ↔
      ∃ tokens, tokenize source .builtIn = (tokens, none) ∧
        Derives true (.expr e) true (tokens.map Token.piece) := by
  rw [parse_eq_ok_iff]
  constructor
  · rintro ⟨T, hreads, hderives⟩
    obtain ⟨tokens, htokens, rfl⟩ := tokenize_iff_reads.2 hreads
    exact ⟨tokens, htokens, hderives⟩
  · rintro ⟨tokens, htokens, hderives⟩
    exact ⟨_, tokenize_iff_reads.1 ⟨tokens, htokens, rfl⟩, hderives⟩

end LatentExpr
