import LatentExpr.Expr.Printer
import LatentExpr.Proofs.Grammar.Derives
import LatentExpr.Proofs.Token.Again

/-!
The tokens of printed expressions. The printer puts parentheses by precedence alone, while the parser is
greedy: the alternate of a ternary goes on over a comma, a computed key ends before one, and a whole number
takes the point behind it. An expression reprints if it needs parentheses in none of those places.
-/
namespace LatentExpr

/-! ### Where the printer falls short -/

namespace Expr

theorem precedence_le (e : Expr) : e.precedence ≤ 10 := by
  unfold precedence
  split <;> decide

/-- The expression ends with the alternate of a ternary. -/
def isOpen : Expr → Bool
  | ternary .. => true
  | assign _ value => value.isOpen
  | _ => false

/-- A sequence is not open, and every other expression stands alone in a list. -/
theorem isOpen_and_one_le (e : Expr) : (e.isOpen && decide (1 ≤ e.precedence)) = e.isOpen := by
  cases e with
  | assign | ternary => exact Bool.and_true _
  | _ => rfl

def isComma : Expr → Bool
  | comma _ => true
  | _ => false

theorem isComma_eq_false_iff (e : Expr) : e.isComma = false ↔ 1 ≤ e.precedence := by
  cases e with
  | logical op => cases op <;> simp [isComma, precedence]
  | binary level => cases level <;> simp [isComma, precedence]
  | _ => simp [isComma, precedence]

def isWhole : Expr → Bool
  | constant .number text => Lexeme.isWhole text.toList
  | _ => false

theorem isWhole_iff {e : Expr} :
    e.isWhole = true ↔ ∃ text, e = .constant .number text ∧ Lexeme.isWhole text.toList = true := by
  constructor
  · intro h
    cases e with
    | constant kind text =>
      cases kind with
      | number => exact ⟨text, rfl, h⟩
      | string => cases h
    | _ => cases h
  · rintro ⟨text, rfl, h⟩
    exact h

/-- An item without parentheses that takes the comma behind it. -/
def isHungry (least : Nat) (followed : Bool) (e : Expr) : Bool :=
  followed && e.isOpen && decide (least ≤ e.precedence)

end Expr

mutual

/-- The parser reads the printed form of the expression as that expression: no hungry item is followed by
another one, no computed key is a sequence, and no member is selected from a whole number. -/
def Expr.reprints : Expr → Bool
  | .assign target value => target.reprints && value.reprints
  | .comma [] => true
  | .comma (first :: rest) =>
    first.reprints && !first.isHungry 1 (!rest.isEmpty) && reprintsItems 2 rest
  | .ternary test consequent alternate =>
    test.reprints && (consequent.reprints && alternate.reprints)
  | .logical _ left right => left.reprints && right.reprints
  | .binary _ _ left right => left.reprints && right.reprints
  | .unary _ operand => operand.reprints
  | .identifier _ => true
  | .constant _ _ => true
  | .literal _ => true
  | .receiver => true
  | .call callee args => callee.reprints && reprintsItems 1 args
  | .member object _ => object.reprints && !object.isWhole
  | .index object key => object.reprints && key.reprints
  | .array elements => reprintsItems 1 elements
  | .object properties => reprintsProperties properties

def reprintsItems (least : Nat) : List Expr → Bool
  | [] => true
  | item :: rest =>
    item.reprints && !item.isHungry least (!rest.isEmpty) && reprintsItems least rest

def Property.reprints (followed : Bool) : Property → Bool
  | .named _ value => value.reprints && !value.isHungry 1 followed
  | .constant _ _ value => value.reprints && !value.isHungry 1 followed
  | .computed key value =>
    key.reprints && !key.isComma && (value.reprints && !value.isHungry 1 followed)

def reprintsProperties : List Property → Bool
  | [] => true
  | p :: rest => p.reprints (!rest.isEmpty) && reprintsProperties rest

end

attribute [simp] Expr.reprints reprintsItems Property.reprints reprintsProperties

/-! ### Tokens -/

/-- The tokens of a whole number, a point and a name in one run: the point belongs to the number, and so
does the beginning of the name if it reads as an exponent. -/
def Lexeme.glued (number name : String) : List Piece :=
  let (digits, rest) := Lexeme.exponent name.toList
  .number (number ++ "." ++ String.ofList digits) ::
    if rest = [] then [] else [.identifier (String.ofList rest)]

namespace Expr

/-- The tokens of an expression in a place that asks for a precedence of at least `least`. -/
def enclosePieces (least : Nat) (e : Expr) (ps : List Piece) : List Piece :=
  if e.precedence < least then .punct '(' :: (ps ++ [.punct ')']) else ps

/-- The tokens of a member. -/
def memberPieces (object : Expr) (name : String) (ps : List Piece) : List Piece :=
  match object with
  | .constant .number text =>
    if Lexeme.isWhole text.toList then Lexeme.glued text name
    else ps ++ [.punct '.', .identifier name]
  | _ => object.enclosePieces 10 ps ++ [.punct '.', .identifier name]

theorem memberPieces_of_not_isWhole {object : Expr} (h : ¬object.isWhole = true) (name : String)
    (ps : List Piece) :
    object.memberPieces name ps = object.enclosePieces 10 ps ++ [.punct '.', .identifier name] := by
  unfold memberPieces
  split
  · exact if_neg h
  · rfl

end Expr

mutual

/-- The tokens of the printed form of an expression. -/
def Expr.pieces : Expr → List Piece
  | .assign target value =>
    target.enclosePieces 2 target.pieces ++ .symbol "=" :: value.enclosePieces 1 value.pieces
  | .comma [] => []
  | .comma (first :: rest) => first.enclosePieces 1 first.pieces ++ restPieces 2 rest
  | .ternary test consequent alternate =>
    test.enclosePieces 3 test.pieces ++ .punct '?' ::
      (consequent.pieces ++ .punct ':' :: alternate.enclosePieces 1 alternate.pieces)
  | .logical op left right =>
    let precedence := (Expr.logical op left right).precedence
    left.enclosePieces precedence left.pieces ++
      .symbol op.symbol :: right.enclosePieces (precedence + 1) right.pieces
  | .binary level op left right =>
    let precedence := (Expr.binary level op left right).precedence
    left.enclosePieces precedence left.pieces ++
      .symbol op.symbol :: right.enclosePieces (precedence + 1) right.pieces
  | .unary op operand => .symbol op.symbol :: operand.enclosePieces 9 operand.pieces
  | .identifier name => [.identifier name]
  | .constant kind text => [⟨kind.token, text⟩]
  | .literal value => [.identifier value.keyword]
  | .receiver => [.identifier "this"]
  | .call callee args =>
    callee.enclosePieces 10 callee.pieces ++ .punct '(' :: (itemsPieces args ++ [.punct ')'])
  | .member object name => object.memberPieces name object.pieces
  | .index object key =>
    object.enclosePieces 10 object.pieces ++ .punct '[' :: (key.pieces ++ [.punct ']'])
  | .array elements => .punct '[' :: (itemsPieces elements ++ [.punct ']'])
  | .object properties => .punct '\x7b' :: (propertiesPieces properties ++ [.punct '\x7d'])

/-- The tokens of the items of a list. -/
def itemsPieces : List Expr → List Piece
  | [] => []
  | first :: rest => first.enclosePieces 1 first.pieces ++ restPieces 1 rest

/-- The tokens of items that follow another one. -/
def restPieces (least : Nat) : List Expr → List Piece
  | [] => []
  | item :: rest => .punct ',' :: (item.enclosePieces least item.pieces ++ restPieces least rest)

def Property.pieces : Property → List Piece
  | .named name value =>
    if value.isNamed name then [.identifier name]
    else .identifier name :: .punct ':' :: value.enclosePieces 1 value.pieces
  | .constant kind text value =>
    ⟨kind.token, text⟩ :: .punct ':' :: value.enclosePieces 1 value.pieces
  | .computed key value =>
    .punct '[' :: (key.pieces ++ .punct ']' :: .punct ':' :: value.enclosePieces 1 value.pieces)

/-- The tokens of the properties of an object literal. -/
def propertiesPieces : List Property → List Piece
  | [] => []
  | [p] => p.pieces
  | p :: q :: rest => p.pieces ++ .punct ',' :: propertiesPieces (q :: rest)

end

end LatentExpr
