import LatentExpr.Source.Comment
import LatentExpr.Symbols.Group
import LatentExpr.Text.Blank
import LatentExpr.Token.Basic
import LatentExpr.Token.Lexeme

/-!
A lexer that is asked for one piece of a source at a time. Every request first skips blanks and
comments, so the lexer then stands at the end of the source or at the first character of a token; what
is asked for and not there leaves it standing. A fault is an answer like any other: the lexer can be
asked again.

Only a request for a single byte can leave a lexer inside a character. There it finds bytes, but no
token, symbol or blank.
-/
namespace LatentExpr

/-- A lexer over a source. `position` is the byte offset of what has not been read: the bytes `split`
that are left of a character that was taken in part, and the characters `rest`. -/
structure Lexer where
  source : List Char
  symbols : SymbolTable
  split : List UInt8
  rest : List Char
  position : Nat
  mark : LineMark
  interner : Interner

/-- A request to a lexer, which answers or faults and is then in another state. -/
abbrev Lexing (α : Type) := ExceptT LexicalError (StateM Lexer) α

namespace Lexer

/-- A lexer at the start of a source. -/
def ofSource (source : String) (symbols : SymbolTable) : Lexer :=
  { source := source.toList, symbols, split := [], rest := source.toList, position := 0
    mark := .first, interner := .empty }

/-- The number of bytes of a text. -/
def byteCount (text : List Char) : Nat := Comment.measure Char.utf8Size text

/-- The lexer after a text that begins its rest, with what follows the text. -/
def past (l : Lexer) (text rest : List Char) : Lexer :=
  { l with rest, position := l.position + byteCount text }

/-- The characters that can be read: none from inside a character. -/
def readable (l : Lexer) : List Char := if l.split.isEmpty then l.rest else []

/-- The bytes that have not been read. -/
def upcoming (l : Lexer) : List UInt8 := l.split ++ Matcher.bytes l.rest

/-- The next byte. -/
def nextByte? (l : Lexer) : Option UInt8 := (l.split ++ Matcher.bytes (l.rest.take 1)).head?

/-- The lexer after the next byte. -/
def pastByte (l : Lexer) : Lexer :=
  match l.split with
  | _ :: split => { l with split, position := l.position + 1 }
  | [] =>
    { l with split := (Matcher.bytes (l.rest.take 1)).drop 1, rest := l.rest.drop 1
             position := l.position + 1 }

theorem nextByte?_eq (l : Lexer) : l.nextByte? = l.upcoming.head? := by
  unfold nextByte? upcoming
  cases l.rest with
  | nil => rfl
  | cons c rest => cases h : String.utf8EncodeChar c <;> simp_all [Matcher.bytes]

theorem upcoming_pastByte (l : Lexer) : l.pastByte.upcoming = l.upcoming.drop 1 := by
  unfold pastByte upcoming
  cases l.split with
  | cons b split => simp
  | nil =>
    cases l.rest with
    | nil => rfl
    | cons c rest => cases h : String.utf8EncodeChar c <;> simp_all [Matcher.bytes]

/-- The location of a byte offset, counted on from the last line start that was noted. -/
def locate (l : Lexer) (offset : Nat) : Location := l.mark.locate l.source offset

def fault (l : Lexer) (fault : LexicalFault) (start stop location : Nat) : LexicalError :=
  ⟨fault, .between start stop, l.locate location⟩

theorem length_splitLine_le (text : List Char) :
    (Comment.splitLine text).2.length ≤ text.length :=
  (List.dropWhile_sublist _).length_le

theorem length_splitClose_le {text body after : List Char}
    (h : Comment.splitClose? text = some (body, after)) : after.length ≤ text.length := by
  rw [Comment.eq_append_of_splitClose? h, List.length_append, List.length_cons, List.length_cons]
  omega

/-- Skip blanks and comments. A comment that is not closed is a fault, and the lexer stands before
it. -/
def skip (l : Lexer) : Except LexicalError Unit × Lexer :=
  match _hr : l.rest with
  | [] => (.ok (), l)
  | '/' :: '/' :: text =>
    have := length_splitLine_le text
    let line := Comment.splitLine text
    skip (l.past ('/' :: '/' :: line.1) line.2)
  | '/' :: '*' :: text =>
    match hs : Comment.splitClose? text with
    | none =>
      (.error (l.fault .unterminatedComment l.position (byteCount l.source) l.position), l)
    | some (body, rest) =>
      have := length_splitClose_le hs
      let block := Comment.Block.ofBody Char.utf8Size (l.position + 2) body
      let mark := ⟨l.mark.line + block.newlines, block.lastLineStart.getD l.mark.start⟩
      skip { l with rest, position := block.stop, mark }
  | c :: rest =>
    if Text.isBlank c then
      skip { l.past [c] rest with mark := l.mark.through l.position [c] }
    else (.ok (), l)
termination_by l.rest.length
decreasing_by
  all_goals simp_all [past] <;> omega

-- Its equations are made here, not by every proof that asks for one of them.
section
attribute [local simp] skip
end

/-! ### Requests -/

/-- Stand before the next token or at the end. -/
def advance : Lexing Unit := fun l => if l.split.isEmpty then skip l else (.ok (), l)

/-- The first character of the next token. -/
def peek? : Lexing (Option Char) := do
  advance
  return (← get).readable.head?

/-- The first byte of the next token, or the next byte of a character that was split. -/
def peekByte? : Lexing (Option UInt8) := do
  advance
  return (← get).nextByte?

def hasRemaining : Lexing Bool := do
  return (← peekByte?).isSome

/-- Take the byte `b`, unless it only begins a longer symbol. -/
def consumeByte (b : UInt8) : Lexing Bool := do
  advance
  let l ← get
  if l.nextByte? = some b ∧
      ((l.symbols.all.longestIn? l.readable).all fun s => s.utf8ByteSize ≤ 1) then
    set l.pastByte
    return true
  else return false

/-- Take the punctuation character `c`, unless it only begins a longer symbol. Of a character beyond
ASCII only the first byte is compared and taken. -/
def consume (c : Char) : Lexing Bool := consumeByte ((String.utf8EncodeChar c).headD 0)

/-- The lexer after a symbol that begins its rest. -/
def pastSymbol (l : Lexer) (symbol : String) : Lexer :=
  l.past symbol.toList (l.rest.drop symbol.length)

/-- Take the longest symbol of a group, if it is the longest symbol of all groups. -/
def consumeSymbol? (group : OperatorGroup) : Lexing (Option Name) := do
  advance
  let l ← get
  if l.readable.isEmpty then return none
  match (l.symbols.group? group.name).bind (·.longestIn? l.readable) with
  | none => return none
  | some symbol =>
    if l.symbols.all.longestIn? l.readable = some symbol then
      let (name, interner) := l.interner.intern symbol
      set { l.pastSymbol symbol with interner }
      return some name
    else return none

/-- Take the symbol `text`, if it is the longest symbol of all groups. -/
def consumeText (text : String) : Lexing Bool := do
  advance
  let l ← get
  if !l.readable.isEmpty && l.symbols.all.longestIn? l.readable = some text then
    set (l.pastSymbol text)
    return true
  else return false

/-- Take a token, given its characters and what follows them. -/
def take (kind : TokenKind) (text rest : List Char) : Lexing Token := do
  let l ← get
  let after := l.past text rest
  let span := Span.between l.position after.position
  let text := String.ofList text
  match kind with
  | .number | .string =>
    set after
    return ⟨kind, text, span, none⟩
  | .identifier | .symbol =>
    let (name, interner) := l.interner.intern text
    set { after with interner }
    return ⟨kind, text, span, some name⟩

/-- Take an identifier or keyword, if one comes next. -/
def nextIdentifier? : Lexing (Option Token) := do
  advance
  let l ← get
  match l.readable with
  | [] => return none
  | c :: _ =>
    if Text.isIdentStart c then
      let (text, rest) := Lexeme.identifier l.rest
      some <$> take .identifier text rest
    else return none

/-- Take a string that starts with `quote`. Line feeds in it are noted, also if it is not closed. -/
def takeString (quote : Char) (text : List Char) : Lexing Token := do
  let l ← get
  let (tail, rest, ending) := Lexeme.stringTail quote text
  let noted := { l with mark := l.mark.through (l.position + quote.utf8Size) tail }
  set noted
  match ending with
  | .closed => take .string (quote :: tail) rest
  | .unterminated =>
    let stop := (l.past (quote :: tail) rest).position
    throw (noted.fault .unterminatedString l.position stop stop)

/-- Take the longest symbol that comes next. `c` is the first character of the rest. -/
def takeSymbol (c : Char) : Lexing Token := do
  let l ← get
  match l.symbols.all.longestIn? l.rest with
  | some symbol => take .symbol symbol.toList (l.rest.drop symbol.length)
  | none =>
    throw (l.fault (.unexpectedCharacter c) l.position (l.position + c.utf8Size) l.position)

/-- Take the next token, if there is one. -/
def nextToken? : Lexing (Option Token) := do
  advance
  let l ← get
  match l.readable with
  | [] => return none
  | c :: after =>
    if c = '0' then
      let (text, rest) := Lexeme.fromZero l.rest
      some <$> take .number text rest
    else if c.isDigit || (c = '.' && after.head?.any Char.isDigit) then
      let (text, rest) := Lexeme.decimal l.rest
      some <$> take .number text rest
    else if Text.isIdentStart c then
      let (text, rest) := Lexeme.identifier l.rest
      some <$> take .identifier text rest
    else if Text.isQuote c then some <$> takeString c after
    else some <$> takeSymbol c

/-- The next token, which is not taken. Line starts and names met on the way are kept. -/
def peekToken? : Lexing (Option Token) := do
  advance
  let before ← get
  let answer : Except LexicalError (Option Token) × Lexer := nextToken?.run before
  set { answer.2 with rest := before.rest, position := before.position }
  liftExcept answer.1
where
  liftExcept (answer : Except LexicalError (Option Token)) : Lexing (Option Token) :=
    fun l => (answer, l)

/-- The text of whatever comes next: a token, the single character where no token can be read, or
nothing at the end. -/
def foundText (l : Lexer) : String × Lexer :=
  let (answer, l) := peekToken?.run l
  match answer with
  | .ok (some token) => (token.text, l)
  | .ok none => ("", l)
  | .error _ => (String.ofList (l.readable.take 1), l)

/-! ### Whole sources -/

/-- The tokens up to the end or the first fault, at most `fuel` of them. -/
def tokensWithin : Nat → Lexer → List Token × Option LexicalError
  | 0, _ => ([], none)
  | fuel + 1, l =>
    match nextToken?.run l with
    | (.ok none, _) => ([], none)
    | (.error e, _) => ([], some e)
    | (.ok (some token), l) =>
      let (tokens, fault) := tokensWithin fuel l
      (token :: tokens, fault)

/-- All tokens up to the end or the first fault. -/
def tokens (l : Lexer) : List Token × Option LexicalError := tokensWithin (l.rest.length + 1) l

end Lexer

/-- The tokens of a source up to its end or the first fault. -/
def tokenize (source : String) (symbols : SymbolTable) : List Token × Option LexicalError :=
  (Lexer.ofSource source symbols).tokens

end LatentExpr
