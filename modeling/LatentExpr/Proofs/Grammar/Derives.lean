import LatentExpr.Parser.Basic
import LatentExpr.Proofs.Token.Reads

/-!
The grammar of expressions over tokens, without a lexer. `Derives` relates a run of tokens to the tree it
stands for; every token has its place in a derivation, and none is read twice.

    expr        := assignment (',' ternary)*
    assignment  := ternary ('=' assignment)?                 the target is a name or a member
    ternary     := chain ('?' expr ':' expr)?
    chain       := tighter (operator tighter)*               for each binary level
    unary       := operator unary | primary postfix*
    postfix     := '(' elements ')' | '[' expr ']' | '.' name
    primary     := '(' expr ')' | '[' elements ']' | '{' properties '}' | name | constant
    elements    := (slot (',' slot)*)?                       slot := assignment?
    properties  := (place (',' place)*)?                     place := property?
    property    := '[' assignment ']' ':' assignment | key ':' assignment | name

The alternate of a ternary is a whole `expr`, so the grammar leaves open to whom the comma in `a ? b : c, d`
belongs. A phrase is hungry if it goes on over a comma that follows it; in a greedy derivation no hungry
item stands before a comma.
-/
namespace LatentExpr

/-! ### Operators -/

/-- The built-in symbols of a level. -/
def Level.symbols : Level → List String
  | .logical op => [op.symbol]
  | .binary level => level.group.builtIn

/-- The operation that a symbol of a level stands for between two operands. -/
def Level.join : Level → String → Expr → Expr → Expr
  | .logical op, _ => .logical op
  | .binary level, symbol => .binary level (.ofSymbol level symbol)

/-- The expression that a token is by itself. -/
def Piece.expr? (p : Piece) : Option Expr :=
  match p.kind with
  | .identifier =>
    if p.text = "this" then some .receiver
    else match Literal.ofKeyword? p.text with
      | some value => some (.literal value)
      | none => some (.identifier p.text)
  | .number => some (.constant .number p.text)
  | .string => some (.constant .string p.text)
  | .symbol => none

/-- The kind of token that a constant is. -/
def ConstantKind.token : ConstantKind → TokenKind
  | number => .number
  | string => .string

theorem Literal.keyword_ofKeyword? {word : String} {value : Literal}
    (h : ofKeyword? word = some value) : value.keyword = word := by
  unfold ofKeyword? at h
  simpa using List.find?_some h

/-- The tokens that are expressions. -/
theorem Piece.expr?_cases {p : Piece} {e : Expr} (h : p.expr? = some e) :
    (p = .identifier "this" ∧ e = .receiver) ∨
      (∃ value : Literal, p = .identifier value.keyword ∧ e = .literal value) ∨
        (∃ name, isKeyword name = false ∧ p = .identifier name ∧ e = .identifier name) ∨
          ∃ kind text, p = ⟨ConstantKind.token kind, text⟩ ∧ e = .constant kind text := by
  obtain ⟨kind, text⟩ := p
  unfold expr? at h
  cases kind with
  | identifier =>
    simp only at h
    by_cases hthis : text = "this"
    · rw [if_pos hthis] at h
      exact .inl ⟨congrArg Piece.identifier hthis, (Option.some.inj h).symm⟩
    · rw [if_neg hthis] at h
      cases hword : Literal.ofKeyword? text with
      | some value =>
        rw [hword] at h
        have hkeyword := congrArg Piece.identifier (Literal.keyword_ofKeyword? hword)
        exact .inr (.inl ⟨value, hkeyword.symm, (Option.some.inj h).symm⟩)
      | none =>
        rw [hword] at h
        have hname : isKeyword text = false := by simp [isKeyword, hthis, hword]
        exact .inr (.inr (.inl ⟨text, hname, rfl, (Option.some.inj h).symm⟩))
  | number => exact .inr (.inr (.inr ⟨.number, text, rfl, (Option.some.inj h).symm⟩))
  | string => exact .inr (.inr (.inr ⟨.string, text, rfl, (Option.some.inj h).symm⟩))
  | symbol => cases h

/-! ### Derivations -/

/-- A phrase of the grammar with its tree. -/
inductive Phrase where
  | expr (e : Expr)
  /-- The items behind the first comma. -/
  | items (es : List Expr)
  | assignment (e : Expr)
  | ternary (e : Expr)
  /-- Operands and operators of some levels, the first of which is the loosest. -/
  | chain (levels : List Level) (e : Expr)
  /-- The operators of a level and their right operands, behind the operand `left`. -/
  | chainRest (level : Level) (tighter : List Level) (left e : Expr)
  | unary (e : Expr)
  /-- The calls and members behind the expression `left`. -/
  | postfixes (left e : Expr)
  | primary (e : Expr)
  | elements (es : List Expr)
  | slots (es : List Expr)
  | slot (e : Expr)
  | properties (ps : List Property)
  | places (ps : List Property)
  | place (ps : List Property)
  | property (p : Property)

/-- A run of tokens is derived from a phrase. The index says whether the phrase is hungry; what stands
between brackets counts as not hungry. -/
inductive Derives (greedy : Bool) : Phrase → Bool → List Piece → Prop where
  | single {e : Expr} {o : Bool} {T : List Piece} (h : Derives greedy (.assignment e) o T) :
    Derives greedy (.expr e) true T
  | sequence {e : Expr} {es : List Expr} {o : Bool} {T U : List Piece}
    (h : Derives greedy (.assignment e) o T) (ho : greedy = true → o = false)
    (hs : Derives greedy (.items es) true U) :
    Derives greedy (.expr (.comma (e :: es))) true (T ++ .punct ',' :: U)
  | lastItem {e : Expr} {o : Bool} {T : List Piece} (h : Derives greedy (.ternary e) o T) :
    Derives greedy (.items [e]) true T
  | moreItems {e : Expr} {es : List Expr} {o : Bool} {T U : List Piece}
    (h : Derives greedy (.ternary e) o T) (ho : greedy = true → o = false)
    (hs : Derives greedy (.items es) true U) :
    Derives greedy (.items (e :: es)) true (T ++ .punct ',' :: U)
  | unassigned {e : Expr} {o : Bool} {T : List Piece} (h : Derives greedy (.ternary e) o T) :
    Derives greedy (.assignment e) o T
  | assigned {target value : Expr} {o o' : Bool} {T U : List Piece}
    (h : Derives greedy (.ternary target) o' T) (hw : target.isWritable = true)
    (hv : Derives greedy (.assignment value) o U) :
    Derives greedy (.assignment (.assign target value)) o (T ++ .symbol "=" :: U)
  | untested {e : Expr} {T : List Piece} (h : Derives greedy (.chain Level.all e) false T) :
    Derives greedy (.ternary e) false T
  | tested {test consequent alternate : Expr} {T U V : List Piece}
    (h : Derives greedy (.chain Level.all test) false T)
    (hc : Derives greedy (.expr consequent) true U) (ha : Derives greedy (.expr alternate) true V) :
    Derives greedy (.ternary (.ternary test consequent alternate)) true
      (T ++ .punct '?' :: (U ++ .punct ':' :: V))
  | operand {e : Expr} {T : List Piece} (h : Derives greedy (.unary e) false T) :
    Derives greedy (.chain [] e) false T
  | level {level : Level} {tighter : List Level} {left e : Expr} {T U : List Piece}
    (h : Derives greedy (.chain tighter left) false T)
    (hr : Derives greedy (.chainRest level tighter left e) false U) :
    Derives greedy (.chain (level :: tighter) e) false (T ++ U)
  | restDone {level : Level} {tighter : List Level} {e : Expr} :
    Derives greedy (.chainRest level tighter e e) false []
  | restMore {level : Level} {tighter : List Level} {symbol : String} {left right e : Expr}
    {T U : List Piece} (hs : symbol ∈ level.symbols)
    (h : Derives greedy (.chain tighter right) false T)
    (hr : Derives greedy (.chainRest level tighter (level.join symbol left right) e) false U) :
    Derives greedy (.chainRest level tighter left e) false (.symbol symbol :: (T ++ U))
  | signed {symbol : String} {e : Expr} {T : List Piece} (hs : symbol ∈ OperatorGroup.unary.builtIn)
    (h : Derives greedy (.unary e) false T) :
    Derives greedy (.unary (.unary (.ofSymbol symbol) e)) false (.symbol symbol :: T)
  | unsigned {head e : Expr} {T U : List Piece} (h : Derives greedy (.primary head) false T)
    (hp : Derives greedy (.postfixes head e) false U) :
    Derives greedy (.unary e) false (T ++ U)
  | postfixesDone {e : Expr} : Derives greedy (.postfixes e e) false []
  | called {callee e : Expr} {args : List Expr} {T U : List Piece}
    (h : Derives greedy (.elements args) false T)
    (hp : Derives greedy (.postfixes (.call callee args) e) false U) :
    Derives greedy (.postfixes callee e) false (.punct '(' :: (T ++ .punct ')' :: U))
  | indexed {object key e : Expr} {T U : List Piece} (h : Derives greedy (.expr key) true T)
    (hp : Derives greedy (.postfixes (.index object key) e) false U) :
    Derives greedy (.postfixes object e) false (.punct '[' :: (T ++ .punct ']' :: U))
  | selected {object e : Expr} {name : String} {U : List Piece} (hn : isKeyword name = false)
    (hp : Derives greedy (.postfixes (.member object name) e) false U) :
    Derives greedy (.postfixes object e) false (.punct '.' :: .identifier name :: U)
  | group {e : Expr} {T : List Piece} (h : Derives greedy (.expr e) true T) :
    Derives greedy (.primary e) false (.punct '(' :: (T ++ [.punct ')']))
  | array {es : List Expr} {T : List Piece} (h : Derives greedy (.elements es) false T) :
    Derives greedy (.primary (.array es)) false (.punct '[' :: (T ++ [.punct ']']))
  | object {ps : List Property} {T : List Piece} (h : Derives greedy (.properties ps) false T) :
    Derives greedy (.primary (.object ps)) false (.punct '\x7b' :: (T ++ [.punct '\x7d']))
  | token {p : Piece} {e : Expr} (h : p.expr? = some e) : Derives greedy (.primary e) false [p]
  | noElements : Derives greedy (.elements []) false []
  /-- A list of one empty slot is the empty list. -/
  | someElements {es : List Expr} {T : List Piece} (h : Derives greedy (.slots es) false T)
    (hne : T ≠ []) : Derives greedy (.elements es) false T
  | lastSlot {e : Expr} {o : Bool} {T : List Piece} (h : Derives greedy (.slot e) o T) :
    Derives greedy (.slots [e]) false T
  | moreSlots {e : Expr} {es : List Expr} {o : Bool} {T U : List Piece}
    (h : Derives greedy (.slot e) o T) (ho : greedy = true → o = false)
    (hs : Derives greedy (.slots es) false U) :
    Derives greedy (.slots (e :: es)) false (T ++ .punct ',' :: U)
  | emptySlot : Derives greedy (.slot (.literal .undefined)) false []
  | filledSlot {e : Expr} {o : Bool} {T : List Piece} (h : Derives greedy (.assignment e) o T) :
    Derives greedy (.slot e) o T
  | noProperties : Derives greedy (.properties []) false []
  | someProperties {ps : List Property} {T : List Piece} (h : Derives greedy (.places ps) false T) :
    Derives greedy (.properties ps) false T
  | lastPlace {ps : List Property} {o : Bool} {T : List Piece} (h : Derives greedy (.place ps) o T) :
    Derives greedy (.places ps) false T
  | morePlaces {ps qs : List Property} {o : Bool} {T U : List Piece}
    (h : Derives greedy (.place ps) o T) (ho : greedy = true → o = false)
    (hs : Derives greedy (.places qs) false U) :
    Derives greedy (.places (ps ++ qs)) false (T ++ .punct ',' :: U)
  | emptyPlace : Derives greedy (.place []) false []
  | filledPlace {p : Property} {o : Bool} {T : List Piece} (h : Derives greedy (.property p) o T) :
    Derives greedy (.place [p]) o T
  | computed {key value : Expr} {o o' : Bool} {T U : List Piece}
    (hk : Derives greedy (.assignment key) o' T) (hv : Derives greedy (.assignment value) o U) :
    Derives greedy (.property (.computed key value)) o
      (.punct '[' :: (T ++ .punct ']' :: .punct ':' :: U))
  | constant {kind : ConstantKind} {text : String} {value : Expr} {o : Bool} {U : List Piece}
    (hv : Derives greedy (.assignment value) o U) :
    Derives greedy (.property (.constant kind text value)) o (⟨kind.token, text⟩ :: .punct ':' :: U)
  | named {name : String} {value : Expr} {o : Bool} {U : List Piece}
    (hv : Derives greedy (.assignment value) o U) :
    Derives greedy (.property (.named name value)) o (.identifier name :: .punct ':' :: U)
  | shorthand {name : String} (hn : isKeyword name = false) :
    Derives greedy (.property (.named name (.identifier name))) false [.identifier name]

namespace Derives

variable {greedy : Bool} {ph : Phrase} {o : Bool} {T : List Piece}

/-- A greedy derivation is one of the grammar. -/
theorem documented (h : Derives true ph o T) : Derives false ph o T := by
  induction h with
  | single _ ih => exact .single ih
  | sequence _ _ _ ih ihs => exact .sequence ih nofun ihs
  | lastItem _ ih => exact .lastItem ih
  | moreItems _ _ _ ih ihs => exact .moreItems ih nofun ihs
  | unassigned _ ih => exact .unassigned ih
  | assigned _ hw _ ih ihv => exact .assigned ih hw ihv
  | untested _ ih => exact .untested ih
  | tested _ _ _ ih ihc iha => exact .tested ih ihc iha
  | operand _ ih => exact .operand ih
  | level _ _ ih ihr => exact .level ih ihr
  | restDone => exact .restDone
  | restMore hs _ _ ih ihr => exact .restMore hs ih ihr
  | signed hs _ ih => exact .signed hs ih
  | unsigned _ _ ih ihp => exact .unsigned ih ihp
  | postfixesDone => exact .postfixesDone
  | called _ _ ih ihp => exact .called ih ihp
  | indexed _ _ ih ihp => exact .indexed ih ihp
  | selected hn _ ih => exact .selected hn ih
  | group _ ih => exact .group ih
  | array _ ih => exact .array ih
  | object _ ih => exact .object ih
  | token h => exact .token h
  | noElements => exact .noElements
  | someElements _ hne ih => exact .someElements ih hne
  | lastSlot _ ih => exact .lastSlot ih
  | moreSlots _ _ _ ih ihs => exact .moreSlots ih nofun ihs
  | emptySlot => exact .emptySlot
  | filledSlot _ ih => exact .filledSlot ih
  | noProperties => exact .noProperties
  | someProperties _ ih => exact .someProperties ih
  | lastPlace _ ih => exact .lastPlace ih
  | morePlaces _ _ _ ih ihs => exact .morePlaces ih nofun ihs
  | emptyPlace => exact .emptyPlace
  | filledPlace _ ih => exact .filledPlace ih
  | computed _ _ ihk ihv => exact .computed ihk ihv
  | constant _ ih => exact .constant ih
  | named _ ih => exact .named ih
  | shorthand hn => exact .shorthand hn

end Derives

/-! ### First tokens -/

namespace Piece

/-- A primary may start with the token. -/
def StartsPrimary (p : Piece) : Prop :=
  p.expr?.isSome = true ∨ p ∈ [punct '(', punct '[', punct '\x7b']

/-- An expression may start with the token. -/
def StartsExpr (p : Piece) : Prop :=
  p.StartsPrimary ∨ ∃ s ∈ OperatorGroup.unary.builtIn, p = symbol s

/-- A property may start with the token. -/
def StartsProperty (p : Piece) : Prop := p = punct '[' ∨ p.kind ≠ .symbol

end Piece

/-- What a phrase may start with, if it cannot be empty. -/
def Phrase.starts? : Phrase → Option (Piece → Prop)
  | expr _ | items _ | assignment _ | ternary _ | chain .. | unary _ => some Piece.StartsExpr
  | primary _ => some Piece.StartsPrimary
  | property _ => some Piece.StartsProperty
  | _ => none

namespace Derives

variable {greedy : Bool} {ph : Phrase} {o : Bool} {T : List Piece}

/-- The first token of a phrase that cannot be empty. -/
theorem starts (h : Derives greedy ph o T) {P : Piece → Prop} (hP : ph.starts? = some P) :
    ∃ p U, T = p :: U ∧ P p := by
  have append {T U : List Piece} {P : Piece → Prop} (h : ∃ p V, T = p :: V ∧ P p) :
      ∃ p V, T ++ U = p :: V ∧ P p := by
    obtain ⟨p, V, rfl, hp⟩ := h
    exact ⟨p, V ++ U, rfl, hp⟩
  induction h generalizing P with
  | single _ ih => exact ih hP
  | sequence _ _ _ ih => exact append (ih hP)
  | lastItem _ ih => exact ih hP
  | moreItems _ _ _ ih => exact append (ih hP)
  | unassigned _ ih => exact ih hP
  | assigned _ _ _ ih => exact append (ih hP)
  | untested _ ih => exact ih hP
  | tested _ _ _ ih => exact append (ih hP)
  | operand _ ih => exact ih hP
  | level _ _ ih => exact append (ih hP)
  | signed hs =>
    obtain rfl := Option.some.inj hP
    exact ⟨_, _, rfl, .inr ⟨_, hs, rfl⟩⟩
  | unsigned _ _ ih =>
    obtain rfl := Option.some.inj hP
    obtain ⟨p, V, rfl, hp⟩ := ih rfl
    exact ⟨p, _, rfl, .inl hp⟩
  | group | array | object =>
    obtain rfl := Option.some.inj hP
    exact ⟨_, _, rfl, .inr (by decide)⟩
  | token h =>
    obtain rfl := Option.some.inj hP
    exact ⟨_, _, rfl, .inl (by rw [h]; rfl)⟩
  | computed =>
    obtain rfl := Option.some.inj hP
    exact ⟨_, _, rfl, .inl rfl⟩
  | @constant kind =>
    obtain rfl := Option.some.inj hP
    refine ⟨_, _, rfl, .inr ?_⟩
    cases kind <;> nofun
  | named | shorthand =>
    obtain rfl := Option.some.inj hP
    exact ⟨_, _, rfl, .inr nofun⟩
  | _ => cases hP

end Derives

end LatentExpr
