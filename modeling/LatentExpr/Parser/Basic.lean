import LatentExpr.Expr.Printer
import LatentExpr.Parser.Error
import LatentExpr.Token.Lexer

/-!
Reading expressions by recursive descent. Each level of the grammar asks the lexer for the symbols of
its group and leaves everything else to the tighter levels; nothing is read twice.

    expr        := assignment (',' ternary)*
    assignment  := ternary ('=' assignment)?
    ternary     := chain ('?' expr ':' expr)?
    chain       := tighter (operator tighter)*        for each binary level
    unary       := operator unary | postfix
    postfix     := primary ('(' elements ')' | '[' expr ']' | '.' name)*
    primary     := '(' expr ')' | '[' elements ']' | '{' properties '}' | name | constant

The recursion is on a budget of nested calls. `Expr.parse` grants one that no source can use up, since
a call that does not go to a tighter level has taken a character.
-/
namespace LatentExpr

/-- A step of reading: it takes from a lexer, or ends with an error. -/
abbrev Parsing (α : Type) := StateT Lexer (Except ParseError) α

/-- A binary level: one logical operator, or the operators of a group. -/
inductive Level where
  | logical (op : LogicalOp)
  | binary (level : BinaryLevel)
deriving DecidableEq

/-- The binary levels, the loosest first. -/
def Level.all : List Level :=
  [.logical .or, .logical .and, .binary .equality, .binary .relational, .binary .additive,
    .binary .multiplicative]

namespace Parsing

/-- A request to the lexer. Its fault is an error. -/
def ask {α : Type} (request : Lexing α) : Parsing α := fun l =>
  match request.run l with
  | (.ok a, l) => .ok (a, l)
  | (.error e, _) => .error (.ofLexical e)

def consume (c : Char) : Parsing Bool := ask (Lexer.consume c)

def peek? : Parsing (Option Char) := ask Lexer.peek?

/-! ### Errors -/

def tooDeep {α : Type} : Parsing α := fun l =>
  .error ⟨.tooDeep, .between l.position l.position, l.locate l.position⟩

/-- Whatever comes next is not what was expected. -/
def unexpected {α : Type} (expected : String) : Parsing α := fun l =>
  let (found, after) := l.foundText
  let stop := l.position + found.utf8ByteSize
  .error ⟨.unexpectedToken expected found, .between l.position stop, after.locate l.position⟩

/-- A token that was taken is not what was expected. -/
def unexpectedToken {α : Type} (expected : String) (token : Token) : Parsing α := fun l =>
  .error ⟨.unexpectedToken expected token.text, token.span, l.locate token.span.start⟩

def invalidKey {α : Type} (token : Token) : Parsing α := fun l =>
  .error ⟨.invalidObjectKey token.text, token.span, l.locate token.span.start⟩

/-- The expression that starts at an offset is followed by an assignment and cannot be its target. -/
def invalidTarget {α : Type} (target : Expr) (start : Nat) : Parsing α := fun l =>
  .error ⟨.invalidAssignmentTarget target.print, .between start l.position, l.locate start⟩

/-- The rest of the source is too much; the message quotes twenty characters of it. -/
def trailing {α : Type} : Parsing α := fun l =>
  .error ⟨.trailingInput (String.ofList (l.rest.take 20)),
    .between l.position (Lexer.byteCount l.source), l.locate l.position⟩

/-- Take the punctuation character `c`, which has to come next. -/
def expect (c : Char) : Parsing Unit := do
  if !(← consume c) then unexpected c.toString

/-! ### Operators and names -/

/-- Take an operator of a level, if one comes next. The answer puts it between two operands. -/
def operator? : Level → Parsing (Option (Expr → Expr → Expr))
  | .logical op => do
    if ← ask (Lexer.consumeText op.symbol) then return some (.logical op) else return none
  | .binary level => do
    let name ← ask (Lexer.consumeSymbol? level.group)
    return name.map fun n => .binary level (.ofSymbol level n.text)

/-- Take the name behind a point. A keyword is no name. -/
def memberName : Parsing String := do
  match ← ask Lexer.nextIdentifier? with
  | none => unexpected "<identifier>"
  | some token =>
    if isKeyword token.text then unexpectedToken "<identifier>" token else return token.text

/-- The expression that a token is by itself. -/
def ofToken (token : Token) : Parsing Expr :=
  match token.kind with
  | .identifier =>
    if token.text = "this" then return .receiver
    else match Literal.ofKeyword? token.text with
      | some value => return .literal value
      | none => return .identifier token.text
  | .number => return .constant .number token.text
  | .string => return .constant .string token.text
  | .symbol => unexpectedToken "expression" token

/-! ### The grammar -/

mutual

def expr : Nat → Parsing Expr
  | 0 => tooDeep
  | budget + 1 => do
    let first ← assignment budget
    if ← consume ',' then return .comma (first :: (← ternaries budget)) else return first

/-- The items behind the first comma. -/
def ternaries : Nat → Parsing (List Expr)
  | 0 => tooDeep
  | budget + 1 => do
    let item ← ternary budget
    if ← consume ',' then return item :: (← ternaries budget) else return [item]

def assignment : Nat → Parsing Expr
  | 0 => tooDeep
  | budget + 1 => do
    ask Lexer.advance
    let start := (← get).position
    let target ← ternary budget
    match ← ask (Lexer.consumeSymbol? .assignment) with
    | none => return target
    | some _ =>
      if target.isWritable then return .assign target (← assignment budget)
      else invalidTarget target start

def ternary : Nat → Parsing Expr
  | 0 => tooDeep
  | budget + 1 => do
    let test ← chain budget Level.all
    if ← consume '?' then
      let consequent ← expr budget
      expect ':'
      return .ternary test consequent (← expr budget)
    else return test

/-- An expression whose operators belong to some levels, the first of which is the loosest. -/
def chain : Nat → List Level → Parsing Expr
  | 0, _ => tooDeep
  | budget + 1, [] => unary budget
  | budget + 1, level :: tighter => do
    let left ← chain budget tighter
    chainRest budget level tighter left

/-- The operators of a level and their right operands, for the left operand `left`. -/
def chainRest : Nat → Level → List Level → Expr → Parsing Expr
  | 0, _, _, _ => tooDeep
  | budget + 1, level, tighter, left => do
    match ← operator? level with
    | none => return left
    | some join =>
      let right ← chain budget tighter
      chainRest budget level tighter (join left right)

def unary : Nat → Parsing Expr
  | 0 => tooDeep
  | budget + 1 => do
    match ← ask (Lexer.consumeSymbol? .unary) with
    | some name => return .unary (.ofSymbol name.text) (← unary budget)
    | none =>
      let e ← primary budget
      postfixes budget e

/-- The calls and members behind an expression. -/
def postfixes : Nat → Expr → Parsing Expr
  | 0, _ => tooDeep
  | budget + 1, e => do
    if ← consume '(' then
      let args ← elements budget ')'
      expect ')'
      postfixes budget (.call e args)
    else if ← consume '[' then
      let key ← expr budget
      expect ']'
      postfixes budget (.index e key)
    else if ← consume '.' then
      let name ← memberName
      postfixes budget (.member e name)
    else return e

def primary : Nat → Parsing Expr
  | 0 => tooDeep
  | budget + 1 => do
    if ← consume '(' then
      let e ← expr budget
      expect ')'
      return e
    else if ← consume '[' then
      let es ← elements budget ']'
      expect ']'
      return .array es
    else if ← consume '\x7b' then
      let ps ← properties budget
      expect '\x7d'
      return .object ps
    else
      match ← ask Lexer.nextToken? with
      | none => unexpected "expression"
      | some token => ofToken token

/-- The elements of a list up to its closing character. -/
def elements : Nat → Char → Parsing (List Expr)
  | 0, _ => tooDeep
  | budget + 1, close => do
    match ← peek? with
    | none => return []
    | some c => if c = close then return [] else elementsRest budget close

/-- The elements of a list that has at least one. A slot with nothing in it holds `undefined`. -/
def elementsRest : Nat → Char → Parsing (List Expr)
  | 0, _ => tooDeep
  | budget + 1, close => do
    let next ← peek?
    let element ←
      if next = some ',' ∨ next = some close then pure (.literal .undefined) else assignment budget
    if ← consume ',' then return element :: (← elementsRest budget close) else return [element]

/-- The properties of an object literal up to its closing brace. -/
def properties : Nat → Parsing (List Property)
  | 0 => tooDeep
  | budget + 1 => do
    match ← peek? with
    | none => return []
    | some c => if c = '\x7d' then return [] else propertiesRest budget

/-- The properties of an object literal that has a slot. A slot with nothing in it holds none. -/
def propertiesRest : Nat → Parsing (List Property)
  | 0 => tooDeep
  | budget + 1 => do
    let next ← peek?
    let slot ←
      if next = some ',' ∨ next = some '\x7d' then pure [] else (return [← property budget])
    if ← consume ',' then return slot ++ (← propertiesRest budget) else return slot

def property : Nat → Parsing Property
  | 0 => tooDeep
  | budget + 1 => do
    if ← consume '[' then
      let key ← assignment budget
      expect ']'
      expect ':'
      return .computed key (← assignment budget)
    else
      match ← ask Lexer.nextToken? with
      | none => unexpected "property"
      | some token =>
        match token.kind with
        | .number =>
          expect ':'
          return .constant .number token.text (← assignment budget)
        | .string =>
          expect ':'
          return .constant .string token.text (← assignment budget)
        | .identifier =>
          if isKeyword token.text then
            expect ':'
            return .named token.text (← assignment budget)
          else if ← consume ':' then return .named token.text (← assignment budget)
          else return .named token.text (.identifier token.text)
        | .symbol => invalidKey token

end

-- The equations of the block are made here, not by every proof that asks for one of them.
section
attribute [local simp] expr ternaries assignment ternary chain chainRest unary postfixes primary elements
  elementsRest properties propertiesRest property
end

/-- A whole source: one expression and nothing behind it. -/
def whole (budget : Nat) : Parsing Expr := do
  let e ← expr budget
  if ← ask Lexer.hasRemaining then trailing else return e

end Parsing

/-- The budget of nested calls for a source: sixteen for each character, as no path through the levels
of the grammar is longer before the next character is taken. -/
def Expr.parseBudget (source : String) : Nat := 16 * (source.length + 1)

/-- The expression that a source denotes with the symbols of a table. -/
def Expr.parse (source : String) (symbols : SymbolTable) : Except ParseError Expr :=
  ((Parsing.whole (parseBudget source)).run (.ofSource source symbols)).map Prod.fst

end LatentExpr
