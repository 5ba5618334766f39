import LatentExpr.Proofs.Grammar.Derives

/-!
Well-formed trees: those that the grammar derives from tokens that a source can have.
-/
namespace LatentExpr

open Lexeme

/-- Some source has the token. -/
def Piece.Lexed (p : Piece) : Prop :=
  ∃ text rest, lexeme? SymbolTable.builtIn.all text = some (p, rest)

theorem Lexeme.Reads.lexed {text : List Char} {T : List Piece}
    (h : Reads SymbolTable.builtIn.all text T) : ∀ p ∈ T, p.Lexed := by
  induction h with
  | done => exact fun p hp => nomatch hp
  | next _ hl _ ih =>
    intro p hp
    rcases List.mem_cons.1 hp with rfl | hp
    · exact ⟨_, _, hl⟩
    · exact ih p hp

mutual

/-- Targets can be assigned to, sequences have two items, operators are those of their level, and the names
and constants are tokens; no name is a keyword. -/
def Expr.WellFormed : Expr → Prop
  | .assign target value => target.isWritable = true ∧ target.WellFormed ∧ value.WellFormed
  | .comma items => 2 ≤ items.length ∧ WellFormedItems items
  | .ternary test consequent alternate =>
    test.WellFormed ∧ consequent.WellFormed ∧ alternate.WellFormed
  | .logical _ left right => left.WellFormed ∧ right.WellFormed
  | .binary level op left right =>
    (∃ s ∈ level.group.builtIn, op = .ofSymbol level s) ∧ left.WellFormed ∧ right.WellFormed
  | .unary op operand =>
    (∃ s ∈ OperatorGroup.unary.builtIn, op = .ofSymbol s) ∧ operand.WellFormed
  | .identifier name => isKeyword name = false ∧ (Piece.identifier name).Lexed
  | .constant kind text => Piece.Lexed ⟨kind.token, text⟩
  | .literal _ | .receiver => True
  | .call callee args => callee.WellFormed ∧ WellFormedItems args
  | .member object name =>
    isKeyword name = false ∧ (Piece.identifier name).Lexed ∧ object.WellFormed
  | .index object key => object.WellFormed ∧ key.WellFormed
  | .array elements => WellFormedItems elements
  | .object properties => WellFormedProperties properties

def WellFormedItems : List Expr → Prop
  | [] => True
  | e :: es => e.WellFormed ∧ WellFormedItems es

def Property.WellFormed : Property → Prop
  | .named name value => (Piece.identifier name).Lexed ∧ value.WellFormed
  | .constant kind text value => Piece.Lexed ⟨kind.token, text⟩ ∧ value.WellFormed
  | .computed key value => key.WellFormed ∧ value.WellFormed

def WellFormedProperties : List Property → Prop
  | [] => True
  | p :: ps => p.WellFormed ∧ WellFormedProperties ps

end

theorem wellFormedProperties_append {ps qs : List Property} (hp : WellFormedProperties ps)
    (hq : WellFormedProperties qs) : WellFormedProperties (ps ++ qs) := by
  induction ps with
  | nil => exact hq
  | cons p ps ih => exact ⟨hp.1, ih hp.2⟩

/-- An operation of a level is well formed if its operands are. -/
theorem Level.wellFormed_join {level : Level} {symbol : String} {left right : Expr}
    (hs : symbol ∈ level.symbols) (hl : left.WellFormed) (hr : right.WellFormed) :
    (level.join symbol left right).WellFormed := by
  cases level with
  | logical op => exact ⟨hl, hr⟩
  | binary level => exact ⟨⟨symbol, hs, rfl⟩, hl, hr⟩

/-- A token is a well-formed expression if it is one. -/
theorem Piece.wellFormed_of_expr? {p : Piece} {e : Expr} (h : p.expr? = some e) (hp : p.Lexed) :
    e.WellFormed := by
  rcases expr?_cases h with ⟨-, rfl⟩ | ⟨value, -, rfl⟩ | ⟨name, hname, rfl, rfl⟩ | ⟨kind, text, rfl, rfl⟩
  · trivial
  · trivial
  · exact ⟨hname, hp⟩
  · exact hp

/-- The trees of a phrase are well formed, if the operand it continues is. -/
def Phrase.WellFormed : Phrase → Prop
  | .expr e | .assignment e | .ternary e | .chain _ e | .unary e | .primary e | .slot e => e.WellFormed
  | .items es => es ≠ [] ∧ WellFormedItems es
  | .chainRest _ _ left e | .postfixes left e => left.WellFormed → e.WellFormed
  | .elements es | .slots es => WellFormedItems es
  | .properties ps | .places ps | .place ps => WellFormedProperties ps
  | .property p => p.WellFormed

/-- What is derived from tokens of a source is well formed. -/
theorem Derives.wellFormed {greedy : Bool} {ph : Phrase} {o : Bool} {T : List Piece}
    (h : Derives greedy ph o T) (hT : ∀ p ∈ T, p.Lexed) : ph.WellFormed := by
  induction h with
  | single _ ih | unassigned _ ih | untested _ ih | operand _ ih | filledSlot _ ih
  | someElements _ _ ih | someProperties _ ih | lastPlace _ ih => exact ih hT
  | sequence _ _ _ ih ihs =>
    simp only [List.forall_mem_append, List.forall_mem_cons] at hT
    obtain ⟨hne, hes⟩ := ihs hT.2.2
    have := List.length_pos_iff.2 hne
    exact ⟨by simp only [List.length_cons]; omega, ih hT.1, hes⟩
  | lastItem _ ih => exact ⟨List.cons_ne_nil _ _, ih hT, trivial⟩
  | moreItems _ _ _ ih ihs =>
    simp only [List.forall_mem_append, List.forall_mem_cons] at hT
    exact ⟨List.cons_ne_nil _ _, ih hT.1, (ihs hT.2.2).2⟩
  | assigned _ hw _ ih ihv =>
    simp only [List.forall_mem_append, List.forall_mem_cons] at hT
    exact ⟨hw, ih hT.1, ihv hT.2.2⟩
  | tested _ _ _ ih ihc iha =>
    simp only [List.forall_mem_append, List.forall_mem_cons] at hT
    exact ⟨ih hT.1, ihc hT.2.2.1, iha hT.2.2.2.2⟩
  | level _ _ ih ihr =>
    rw [List.forall_mem_append] at hT
    exact ihr hT.2 (ih hT.1)
  | restDone | postfixesDone => exact id
  | restMore hs _ _ ih ihr =>
    simp only [List.forall_mem_append, List.forall_mem_cons] at hT
    exact fun hleft => ihr hT.2.2 (Level.wellFormed_join hs hleft (ih hT.2.1))
  | signed hs _ ih =>
    rw [List.forall_mem_cons] at hT
    exact ⟨⟨_, hs, rfl⟩, ih hT.2⟩
  | unsigned _ _ ih ihp =>
    rw [List.forall_mem_append] at hT
    exact ihp hT.2 (ih hT.1)
  | called _ _ ih ihp =>
    simp only [List.forall_mem_append, List.forall_mem_cons] at hT
    exact fun hcallee => ihp hT.2.2.2 ⟨hcallee, ih hT.2.1⟩
  | indexed _ _ ih ihp =>
    simp only [List.forall_mem_append, List.forall_mem_cons] at hT
    exact fun hobject => ihp hT.2.2.2 ⟨hobject, ih hT.2.1⟩
  | selected hn _ ihp =>
    simp only [List.forall_mem_cons] at hT
    exact fun hobject => ihp hT.2.2 ⟨hn, hT.2.1, hobject⟩
  | group _ ih | array _ ih | object _ ih =>
    simp only [List.forall_mem_append, List.forall_mem_cons] at hT
    exact ih hT.2.1
  | token h => exact Piece.wellFormed_of_expr? h (hT _ (List.mem_singleton_self _))
  | noElements | emptySlot | noProperties | emptyPlace => trivial
  | lastSlot _ ih | filledPlace _ ih => exact ⟨ih hT, trivial⟩
  | moreSlots _ _ _ ih ihs =>
    simp only [List.forall_mem_append, List.forall_mem_cons] at hT
    exact ⟨ih hT.1, ihs hT.2.2⟩
  | morePlaces _ _ _ ih ihs =>
    simp only [List.forall_mem_append, List.forall_mem_cons] at hT
    exact wellFormedProperties_append (ih hT.1) (ihs hT.2.2)
  | computed _ _ ihk ihv =>
    simp only [List.forall_mem_append, List.forall_mem_cons] at hT
    exact ⟨ihk hT.2.1, ihv hT.2.2.2.2⟩
  | constant _ ihv | named _ ihv =>
    simp only [List.forall_mem_cons] at hT
    exact ⟨hT.1, ihv hT.2.2⟩
  | shorthand hn =>
    have hname := hT _ (List.mem_singleton_self _)
    exact ⟨hname, hn, hname⟩

end LatentExpr
