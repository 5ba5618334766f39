import LatentExpr.Proofs.Token.Bytewise
import LatentExpr.Proofs.Token.Lookahead

/-!
A cursor over the bytes of a source. It makes every request of a lexer with the scanners of bytes, and what it reads
out as a text it reads out between two offsets: it panics if one of them is inside of a character (`Cursor`). From
wherever a lexer stands between two characters the cursor answers as the lexer does and stops where the lexer stops
(`Follows`). So it never panics, and it always stops between two characters.
-/
namespace LatentExpr

open Lexer

/-- What an error says but for its location. -/
def LexicalError.refusal (e : LexicalError) : LexicalFault × Span := (e.fault, e.span)

namespace Bytewise

/-! ### Boundaries -/

/-- An offset in a source at which a character starts, or the end: the byte there continues no character. -/
def Boundary (source : List Char) (offset : Nat) : Prop :=
  offset ≤ byteCount source ∧ ∀ b ∈ (Matcher.bytes source)[offset]?, ¬ Continues b

theorem boundary_iff {source : List Char} {offset : Nat} :
    Boundary source offset ↔ ∃ before after, source = before ++ after ∧ offset = byteCount before := by
  constructor
  · rintro ⟨hle, hbyte⟩
    induction source generalizing offset with
    | nil => exact ⟨[], [], rfl, Nat.le_zero.1 hle⟩
    | cons c source ih =>
      rcases Nat.eq_zero_or_pos offset with rfl | hpos
      · exact ⟨[], c :: source, rfl, rfl⟩
      obtain ⟨first, others, hencode, -, hothers⟩ := continues_encode c
      have hsize : (String.utf8EncodeChar c).length = c.utf8Size := String.length_utf8EncodeChar c
      rw [byteCount_cons] at hle
      rw [Matcher.bytes_cons] at hbyte
      by_cases hinside : offset < c.utf8Size
      · -- behind its first byte a character is continued
        obtain ⟨inner, rfl⟩ := Nat.exists_eq_succ_of_ne_zero hpos.ne'
        rw [hencode, List.length_cons] at hsize
        have hlt : inner < others.length := by omega
        rw [hencode, List.cons_append, Nat.succ_eq_add_one, List.getElem?_cons_succ, List.getElem?_append_left hlt,
          List.getElem?_eq_getElem hlt] at hbyte
        exact absurd (hothers _ (List.getElem_mem hlt)) (hbyte _ rfl)
      · rw [List.getElem?_append_right (by omega), hsize] at hbyte
        obtain ⟨before, after, rfl, hoffset⟩ := ih (by omega) hbyte
        refine ⟨c :: before, after, rfl, ?_⟩
        rw [byteCount_cons]
        omega
  · rintro ⟨before, after, rfl, rfl⟩
    refine ⟨by rw [byteCount_append]; omega, fun b hb => ?_⟩
    rw [← List.head?_drop, Matcher.drop_bytes_append] at hb
    cases after with
    | nil => cases hb
    | cons c after =>
      obtain ⟨first, others, hencode, hfirst, -⟩ := continues_encode c
      rw [Matcher.bytes_cons, hencode] at hb
      obtain rfl := Option.some.inj hb
      exact hfirst

/-- There is a text between two offsets exactly if both are boundaries and the first one does not come later. -/
theorem isSome_slice?_iff {source : List Char} {start stop : Nat} :
    (slice? source start stop).isSome ↔ Boundary source start ∧ Boundary source stop ∧ start ≤ stop := by
  rw [Option.isSome_iff_exists, boundary_iff, boundary_iff]
  constructor
  · rintro ⟨text, hslice⟩
    obtain ⟨before, after, rfl, rfl, rfl⟩ := slice?_eq_some_iff.1 hslice
    refine ⟨⟨before, _, rfl, rfl⟩, ⟨before ++ text, after, (List.append_assoc ..).symm, ?_⟩, Nat.le_add_right _ _⟩
    rw [byteCount_append]
  · rintro ⟨⟨before, behind, rfl, rfl⟩, ⟨upTo, after, hsource, rfl⟩, hle⟩
    have hbefore : before <+: upTo :=
      prefix_of_byteCount_le (List.prefix_append before behind) (hsource ▸ List.prefix_append upTo after) hle
    obtain ⟨text, rfl⟩ := hbefore
    rw [byteCount_append, hsource, List.append_assoc]
    exact ⟨text, slice?_append ..⟩

/-! ### Requests by bytes -/

/-- A request to a cursor at a byte offset: it answers or refuses and stops at another offset, or it panics. -/
abbrev Cursor (α : Type) := ExceptT (LexicalFault × Span) (StateT Nat Option) α

/-- Skip blanks and comments by their bytes. Only behind a byte beyond ASCII a character is read out. -/
def skip (source : List Char) (position : Nat) : Option (Except (LexicalFault × Span) Unit × Nat) :=
  match _hinput : (Matcher.bytes source).drop position with
  | [] => some (.ok (), position)
  | b :: input =>
    if isIn Text.isAsciiSpace b then skip source (position + 1)
    else if b = '/'.toUInt8 ∧ input.head? = some '/'.toUInt8 then
      skip source (position + (2 + line (input.drop 1)))
    else if b = '/'.toUInt8 ∧ input.head? = some '*'.toUInt8 then
      match close? (input.drop 1) with
      | none => some (.error (.unterminatedComment, .between position (byteCount source)), position)
      | some body => skip source (position + (2 + body + 2))
    else if b < 128 then some (.ok (), position)
    else
      match slice? source position (byteCount source) with
      | none => none
      | some [] => some (.ok (), position)
      | some (c :: _) => if Text.isBlank c then skip source (position + c.utf8Size) else some (.ok (), position)
termination_by (Matcher.bytes source).length - position
decreasing_by
  all_goals
    have hlength := congrArg List.length _hinput
    rw [List.length_drop, List.length_cons] at hlength
  · omega
  · omega
  · omega
  · have := c.utf8Size_pos
    omega

namespace Cursor
variable (source : List Char) (t : SymbolTable)

def advance : Cursor Unit := skip source

/-- The bytes from the cursor on. -/
def upcoming : Cursor (List UInt8) := fun position =>
  if position ≤ byteCount source then some (.ok ((Matcher.bytes source).drop position), position) else none

/-- The text from the cursor up to an offset. -/
def upTo (stop : Nat) : Cursor (List Char) := fun position =>
  (slice? source position stop).map fun text => (.ok text, position)

def peekByte? : Cursor (Option UInt8) := do
  advance source
  return (← upcoming source).head?

def hasRemaining : Cursor Bool := do
  return (← peekByte? source).isSome

def consumeByte (b : UInt8) : Cursor Bool := do
  advance source
  let input ← upcoming source
  if input.head? = some b ∧ ((t.all.longestMatch? input).all fun s => s.utf8ByteSize ≤ 1) then
    set ((← get) + 1)
    return true
  else return false

/-- Take the longest symbol of a group, if it is the longest symbol of all groups. -/
def consumeSymbol? (group : OperatorGroup) : Cursor (Option String) := do
  advance source
  let input ← upcoming source
  if input.isEmpty then return none
  match (t.group? group.name).bind (·.longestMatch? input) with
  | none => return none
  | some symbol =>
    if t.all.longestMatch? input = some symbol then
      set ((← get) + symbol.utf8ByteSize)
      return some symbol
    else return none

def consumeText (text : String) : Cursor Bool := do
  advance source
  let input ← upcoming source
  if !input.isEmpty && t.all.longestMatch? input = some text then
    set ((← get) + text.utf8ByteSize)
    return true
  else return false

/-- Take a token of some bytes, with the text of its name if it has one. -/
def finish (kind : TokenKind) (length : Nat) : Cursor (Piece × Span × Option String) := do
  let start ← get
  let text := String.ofList (← upTo source (start + length))
  set (start + length)
  let name :=
    match kind with
    | .number | .string => none
    | .identifier | .symbol => some text
  return (⟨kind, text⟩, .between start (start + length), name)

def nextIdentifier? : Cursor (Option (Piece × Span × Option String)) := do
  advance source
  let input ← upcoming source
  if input.head?.any (isIn Text.isIdentStart) then some <$> finish source .identifier (identifier input)
  else return none

/-- Take a string that starts with the byte `quote`. -/
def takeString (quote : UInt8) (after : List UInt8) : Cursor (Piece × Span × Option String) := do
  let start ← get
  match stringTail quote false after with
  | (length, .closed) => finish source .string (1 + length)
  | (length, .unterminated) => throw (.unterminatedString, .between start (start + (1 + length)))

/-- Take the longest symbol that comes next. The character where there is none is read out. -/
def takeSymbol : Cursor (Piece × Span × Option String) := do
  let input ← upcoming source
  match t.all.longestMatch? input with
  | some symbol => finish source .symbol symbol.utf8ByteSize
  | none =>
    let start ← get
    let c := (← upTo source (byteCount source)).headD '\x00'
    throw (.unexpectedCharacter c, .between start (start + c.utf8Size))

def nextToken? : Cursor (Option (Piece × Span × Option String)) := do
  advance source
  let input ← upcoming source
  match input with
  | [] => return none
  | b :: after =>
    if isIn (· = '0') b then some <$> finish source .number (fromZero input)
    else if isIn Char.isDigit b || (isIn (· = '.') b && after.head?.any (isIn Char.isDigit)) then
      some <$> finish source .number (decimal input)
    else if isIn Text.isIdentStart b then some <$> finish source .identifier (identifier input)
    else if isIn Text.isQuote b then some <$> takeString source b after
    else some <$> takeSymbol source t

/-- The next token; the cursor stops before it. -/
def peekToken? : Cursor (Option (Piece × Span × Option String)) := do
  advance source
  fun position => (nextToken? source t position).map fun outcome => (outcome.1, position)

/-- The text of the next token, or the single character where there is none. -/
def foundText : Cursor String := fun position => do
  match ← peekToken? source t position with
  | (.ok (some token), stop) => return (.ok token.1.text, stop)
  | (.ok none, stop) => return (.ok "", stop)
  | (.error _, stop) =>
    let rest ← slice? source stop (byteCount source)
    let text ← slice? rest 0 (byteCount (rest.take 1))
    return (.ok (String.ofList text), stop)

end Cursor

/-- The beginning of what is left behind an offset, as an error quotes it: up to the twenty-first character. -/
def excerpt? (source : List Char) (position : Nat) : Option (List Char) := do
  let rest ← slice? source position (byteCount source)
  slice? rest 0 (byteCount (rest.take 20))

/-! ### A lexer and its cursor -/

/-- A lexer stands between two characters of a source. -/
structure Stands (t : SymbolTable) (source : List Char) (l : Lexer) : Prop extends l.At t l.rest where
  text : l.source = source
  halves : ∃ read, source = read ++ l.rest ∧ l.position = byteCount read

section
variable {t : SymbolTable} {source : List Char} {l l' : Lexer}

theorem stands_ofSource (source : String) (t : SymbolTable) : Stands t source.toList (.ofSource source t) :=
  ⟨⟨rfl, rfl, rfl⟩, rfl, [], rfl, rfl⟩

namespace Stands

theorem onward (h : Stands t source l) (ho : l.Onward l') : Stands t source l' := by
  obtain ⟨text, hrest, hposition, -⟩ := ho.text
  obtain ⟨read, hsource, hread⟩ := h.halves
  refine ⟨⟨ho.split.trans h.split, ho.symbols.trans h.symbols, rfl⟩, ho.source.trans h.text, read ++ text, ?_, ?_⟩
  · rw [hsource, hrest, List.append_assoc]
  · rw [hposition, hread, byteCount_append]

theorem past {text rest : List Char} (h : Stands t source l) (hrest : l.rest = text ++ rest) (mark : LineMark)
    (interner : Interner) : Stands t source { l.past text rest with mark, interner } :=
  h.onward (.past h.split hrest mark interner)

theorem input (h : Stands t source l) : (Matcher.bytes source).drop l.position = Matcher.bytes l.rest := by
  obtain ⟨read, hsource, hposition⟩ := h.halves
  rw [hposition, hsource, Matcher.drop_bytes_append]

theorem boundary (h : Stands t source l) : Boundary source l.position := by
  obtain ⟨read, hsource, hposition⟩ := h.halves
  exact boundary_iff.2 ⟨read, l.rest, hsource, hposition⟩

/-- All that is left can be read out. -/
theorem slice_rest (h : Stands t source l) : slice? source l.position (byteCount source) = some l.rest := by
  obtain ⟨read, hsource, hposition⟩ := h.halves
  rw [hposition, hsource]
  exact slice?_rest read l.rest

theorem slice {text rest : List Char} (h : Stands t source l) (hrest : l.rest = text ++ rest) :
    slice? source l.position (l.position + byteCount text) = some text := by
  obtain ⟨read, hsource, hposition⟩ := h.halves
  rw [hposition, hsource, hrest]
  exact slice?_append read text rest

/-- The span of a text that comes next. -/
theorem covers {text rest : List Char} (hsize : byteCount source ≤ Span.limit) (h : Stands t source l)
    (hrest : l.rest = text ++ rest) :
    (Span.between l.position (l.position + byteCount text)).Covers source text := by
  obtain ⟨read, hsource, hposition⟩ := h.halves
  rw [hrest] at hsource
  have hfits : byteCount read + byteCount text ≤ Span.limit := by
    rw [hsource, byteCount_append, byteCount_append] at hsize
    omega
  refine ⟨read, rest, hsource, ?_⟩
  rw [hposition, Span.between, Nat.min_eq_left hfits, Nat.min_eq_left (by omega)]

theorem covers_rest (hsize : byteCount source ≤ Span.limit) (h : Stands t source l) :
    (Span.between l.position (byteCount source)).Covers source l.rest := by
  obtain ⟨read, hsource, hposition⟩ := h.halves
  have hstop : byteCount source = l.position + byteCount l.rest := by
    rw [hsource, byteCount_append, ← hposition]
  rw [hstop]
  exact h.covers hsize (List.append_nil _).symm

end Stands

/-- What is refused in an answer, and how far it got. -/
def outcome {α : Type} (answer : Except LexicalError α × Lexer) : Except (LexicalFault × Span) α × Nat :=
  (answer.1.mapError LexicalError.refusal, answer.2.position)

/-! ### Skipping -/

theorem skip_nil {position : Nat} (h : (Matcher.bytes source).drop position = []) :
    skip source position = some (.ok (), position) := by
  rw [skip]
  split
  · rfl
  · rename_i hinput
    rw [h] at hinput
    cases hinput

/-- The first byte of a text tells its first character, if that is of ASCII. -/
theorem head?_bytes_eq_iff {b : UInt8} (hb : b < 128) {text : List Char} :
    (Matcher.bytes text).head? = some b ↔ text.head? = some (Char.ofUInt8 b) := by
  cases text with
  | nil => simp [Matcher.bytes]
  | cons c text =>
    rw [Matcher.bytes_cons, List.head?_append_of_ne_nil _ String.utf8EncodeChar_ne_nil, List.head?_cons,
      Option.some.injEq]
    constructor
    · exact fun h => Char.toNat_inj.1 (encode_of_ascii h hb).2
    · rintro rfl
      rw [encode_ofUInt8 hb, List.head?_cons]

theorem isBlank_ofUInt8 {b : UInt8} (hb : b < 128) :
    Text.isBlank (Char.ofUInt8 b) = Text.isAsciiSpace (Char.ofUInt8 b) := by
  have hall : ∀ b : Fin 128, Text.isBlank (Char.ofUInt8 (.ofNat b)) = Text.isAsciiSpace (Char.ofUInt8 (.ofNat b)) := by
    decide
  have h := hall ⟨b.toNat, hb⟩
  rwa [UInt8.ofNat_toNat] at h

theorem ascii_isAsciiSpace : Ascii Text.isAsciiSpace := by
  intro c hc
  simp only [Text.isAsciiSpace, Bool.or_eq_true, decide_eq_true_eq, beq_iff_eq] at hc
  omega

theorem ascii_isQuote : Ascii Text.isQuote := by
  intro c hc
  rw [Text.isQuote, Bool.or_eq_true, beq_iff_eq, beq_iff_eq] at hc
  exact hc.elim (· ▸ by decide) (· ▸ by decide)

/-- What is skipped by bytes is decided by the character that comes next. -/
theorem Stands.skip_cons (h : Stands t source l) {c : Char} {text : List Char} (hrest : l.rest = c :: text) :
    skip source l.position =
      if Text.isBlank c then skip source (l.position + c.utf8Size)
      else if c = '/' ∧ text.head? = some '/' then
        skip source (l.position + (2 + line ((Matcher.bytes text).drop 1)))
      else if c = '/' ∧ text.head? = some '*' then
        match close? ((Matcher.bytes text).drop 1) with
        | none => some (.error (.unterminatedComment, .between l.position (byteCount source)), l.position)
        | some body => skip source (l.position + (2 + body + 2))
      else some (.ok (), l.position) := by
  have hinput := h.input
  have hslice := h.slice_rest
  rw [hrest] at hinput hslice
  rw [Matcher.bytes_cons] at hinput
  rcases encode_cases c with ⟨b, hb, hencode, rfl⟩ | ⟨hc, hwide⟩
  · rw [hencode, List.cons_append, List.nil_append] at hinput
    have hslash : b = '/'.toUInt8 ↔ Char.ofUInt8 b = '/' := 
      ⟨fun h => congrArg Char.ofUInt8 h, fun h => ofUInt8_inj h⟩
    rw [skip]
    split
    · rename_i hnil
      rw [hinput] at hnil
      cases hnil
    · rename_i b' input hcons
      rw [hinput] at hcons
      obtain ⟨rfl, rfl⟩ := List.cons.inj hcons
      have hnext (x : UInt8) (hx : x < 128) :
          (Matcher.bytes text).head? = some x ↔ text.head? = some (Char.ofUInt8 x) := head?_bytes_eq_iff hx
      simp only [isIn, isBlank_ofUInt8 hb, utf8Size_ofUInt8 hb, hslash, if_pos hb, hnext '/'.toUInt8 (by decide),
        hnext '*'.toUInt8 (by decide)]
      rfl
  · obtain ⟨first, others, hencode, -⟩ := continues_encode c
    have hfirst : 128 ≤ first.toNat := hwide first (by rw [hencode]; exact List.mem_cons_self)
    have hspace : isIn Text.isAsciiSpace first = false :=
      Bool.eq_false_iff.2 fun h => absurd (ascii_isAsciiSpace _ h) (Nat.not_lt.2 hfirst)
    have hascii : ¬ first < 128 := Nat.not_lt.2 hfirst
    have hne : first ≠ '/'.toUInt8 := by
      rintro rfl
      exact absurd hfirst (by decide)
    have hc' : c ≠ '/' := by
      rintro rfl
      exact absurd hc (by decide)
    rw [hencode, List.cons_append] at hinput
    rw [skip]
    split
    · rename_i hnil
      rw [hinput] at hnil
      cases hnil
    · rename_i b' input hcons
      rw [hinput] at hcons
      obtain ⟨rfl, rfl⟩ := List.cons.inj hcons
      rw [hspace, if_neg Bool.false_ne_true, if_neg (fun h => hne h.1), if_neg (fun h => hne h.1),
        if_neg hascii, hslice]
      dsimp only
      rw [if_neg (fun h : c = '/' ∧ _ => hc' h.1), if_neg (fun h : c = '/' ∧ _ => hc' h.1)]

/-- Skipping by bytes is skipping. -/
theorem Stands.skip_eq (h : Stands t source l) : skip source l.position = some (outcome (Lexer.skip l)) := by
  have hslash : Text.isBlank '/' = false := rfl
  have hstar {text : List Char} : ¬('/' = '/' ∧ ('*' :: text).head? = some '/') := by
    rintro ⟨-, ⟨⟩⟩
  fun_induction Lexer.skip l with
  | case1 l hr =>
    have hinput := h.input
    rw [hr] at hinput
    exact skip_nil hinput
  | case2 l text hr _ line' ih =>
    have hrest : l.rest = ('/' :: '/' :: line'.1) ++ line'.2 := by
      rw [hr, List.cons_append, List.cons_append, Comment.splitLine_append]
    have hcount : 2 + line (Matcher.bytes text) = byteCount ('/' :: '/' :: line'.1) := by
      rw [line_bytes, byteCount_cons, byteCount_cons, ← Nat.add_assoc]
      rfl
    rw [h.skip_cons hr, hslash, if_neg Bool.false_ne_true, if_pos ⟨rfl, rfl⟩, drop_bytes_ascii (by decide), hcount]
    exact ih (h.past hrest l.mark l.interner)
  | case3 l text hr hs =>
    rw [h.skip_cons hr, hslash, if_neg Bool.false_ne_true, if_neg hstar, if_pos ⟨rfl, rfl⟩, drop_bytes_ascii (by decide),
      close?_bytes, hs, ← h.text]
    rfl
  | case4 l text hr body rest hs _ block mark ih =>
    have hrest : l.rest = ('/' :: '*' :: body ++ ['*', '/']) ++ rest := by
      simp [hr, Comment.eq_append_of_splitClose? hs]
    rw [h.skip_cons hr, hslash, if_neg Bool.false_ne_true, if_neg hstar, if_pos ⟨rfl, rfl⟩, drop_bytes_ascii (by decide),
      close?_bytes, hs]
    -- both stop behind the `*/`
    have hcount : byteCount ('/' :: '*' :: body ++ ['*', '/']) = 2 + byteCount body + 2 := by
      rw [byteCount_append, byteCount_cons, byteCount_cons, ← Nat.add_assoc]
      rfl
    have hstop : block.stop = l.position + (2 + byteCount body + 2) := by
      show l.position + 2 + byteCount body + 1 + 1 = _
      omega
    have hmoved := h.past hrest mark l.interner
    rw [Lexer.past, hcount, ← hstop] at hmoved
    dsimp only [Option.map_some]
    rw [← hstop]
    exact ih hmoved
  | case5 l c rest hline hblock hr hblank ih =>
    have hrest : l.rest = [c] ++ rest := hr
    rw [h.skip_cons hr, if_pos hblank, ← byteCount_singleton]
    exact ih (h.past hrest _ l.interner)
  | case6 l c rest hline hblock hr hblank =>
    rw [h.skip_cons hr, if_neg hblank, if_neg, if_neg]
    · rfl
    · rintro ⟨rfl, hstar⟩
      obtain ⟨more, rfl⟩ := List.head?_eq_some_iff.1 hstar
      exact hblock more rfl rfl
    · rintro ⟨rfl, hslash⟩
      obtain ⟨more, rfl⟩ := List.head?_eq_some_iff.1 hslash
      exact hline more rfl rfl

end

/-! ### Following a lexer -/

/-- From where a lexer stands, a request by bytes follows one to the lexer: it does not panic, it answers what is
shown of the lexer's answer, or refuses as the lexer faults, and stops where the lexer stops, between two characters.
What is shown has the property `Q`, and what is refused is a text of the source. -/
structure Follows {α β : Type} (t : SymbolTable) (source : List Char) (shown : α → β) (Q : β → Prop) (x : Lexing α)
    (y : Cursor β) (l : Lexer) : Prop where
  stands : Stands t source (x l).2
  agrees : y l.position = some (((x l).1.map shown).mapError LexicalError.refusal, (x l).2.position)
  answer : ∀ a, (x l).1 = .ok a → Q (shown a)
  fault : ∀ e, (x l).1 = .error e → ∃ text, e.span.Covers source text

section
variable {α β α' β' : Type} {t : SymbolTable} {source : List Char} {shown : α → β} {shown' : α' → β'} {Q : β → Prop}
  {Q' : β' → Prop} {x : Lexing α} {y : Cursor β} {l : Lexer}

theorem Cursor.bind_apply (y : Cursor β) (g : β → Cursor β') (position : Nat) :
    (y >>= g) position = match y position with
      | none => none
      | some (.ok b, stop) => g b stop
      | some (.error e, stop) => some (.error e, stop) := by
  show (y position).bind _ = _
  rcases y position with _ | ⟨answer, stop⟩
  · rfl
  · cases answer <;> rfl

theorem Follows.pure {a : α} (h : Stands t source l) (ha : Q (shown a)) :
    Follows t source shown Q (Pure.pure a) (Pure.pure (shown a)) l where
  stands := h
  agrees := rfl
  answer := by
    rintro _ ⟨⟩
    exact ha
  fault := nofun

theorem Follows.throw {e : LexicalError} {text : List Char} (h : Stands t source l) (he : e.span.Covers source text) :
    Follows t source shown Q (throw e) (throw e.refusal) l where
  stands := h
  agrees := rfl
  answer := nofun
  fault := by
    rintro _ ⟨⟩
    exact ⟨text, he⟩

theorem Follows.bind {f : α → Lexing α'} {g : β → Cursor β'} (hx : Follows t source shown Q x y l)
    (hf : ∀ a l', Stands t source l' → Q (shown a) → Follows t source shown' Q' (f a) (g (shown a)) l') :
    Follows t source shown' Q' (x >>= f) (y >>= g) l := by
  obtain ⟨hstands, hagrees, hanswer, hfault⟩ := hx
  have hcursor := Cursor.bind_apply y g l.position
  rw [hagrees] at hcursor
  cases h : x l with
  | mk result l' =>
    rw [h] at hstands hanswer hfault hcursor
    cases result with
    | error e =>
      have hbind : (x >>= f) l = (.error e, l') := by rw [Lexing.bind_apply, h]
      refine ⟨?_, by rw [hcursor, hbind]; rfl, fun a ha => ?_, fun e' he' => ?_⟩
      · rw [hbind]
        exact hstands
      · rw [hbind] at ha
        cases ha
      · rw [hbind] at he'
        cases he'
        exact hfault e rfl
    | ok a =>
      have hbind : (x >>= f) l = f a l' := by rw [Lexing.bind_apply, h]
      obtain ⟨hstands', hagrees', hanswer', hfault'⟩ := hf a l' hstands (hanswer a rfl)
      rw [← hbind] at hstands' hagrees' hanswer' hfault'
      exact ⟨hstands', hcursor.trans hagrees', hanswer', hfault'⟩

theorem Follows.map {f : α → α'} {g : β → β'} (hx : Follows t source shown Q x y l)
    (hshown : ∀ a, shown' (f a) = g (shown a)) (hQ : ∀ b, Q b → Q' (g b)) :
    Follows t source shown' Q' (f <$> x) (g <$> y) l := by
  rw [map_eq_pure_bind, map_eq_pure_bind]
  exact hx.bind fun a l' hl' ha => hshown a ▸ .pure hl' (hshown a ▸ hQ _ ha)

theorem Follows.ite {c d : Prop} [Decidable c] [Decidable d] {x' : Lexing α} {y' : Cursor β} (hcd : c ↔ d)
    (hthen : c → Follows t source shown Q x y l) (helse : ¬ c → Follows t source shown Q x' y' l) :
    Follows t source shown Q (if c then x else x') (if d then y else y') l := by
  by_cases hc : c
  · rw [if_pos hc, if_pos (hcd.1 hc)]
    exact hthen hc
  · rw [if_neg hc, if_neg (mt hcd.2 hc)]
    exact helse hc

/-- A lexer is looked at, and a cursor at the bytes that are left. -/
theorem Follows.read {f : Lexer → Lexing α} {g : List UInt8 → Cursor β} (h : Stands t source l)
    (hf : Follows t source shown Q (f l) (g (Matcher.bytes l.rest)) l) :
    Follows t source shown Q (get >>= f) (Cursor.upcoming source >>= g) l := by
  have hcursor : (Cursor.upcoming source >>= g) l.position = g (Matcher.bytes l.rest) l.position := by
    rw [Cursor.bind_apply, Cursor.upcoming, if_pos h.boundary.1, h.input]
  exact ⟨hf.stands, hcursor.trans hf.agrees, hf.answer, hf.fault⟩

/-- The offset of a cursor is looked at. -/
theorem Follows.offset {g : Nat → Cursor β} (hf : Follows t source shown Q x (g l.position) l) :
    Follows t source shown Q x (get >>= g) l := ⟨hf.stands, hf.agrees, hf.answer, hf.fault⟩

theorem Follows.get {f : Lexer → Lexing α} {g : Nat → Cursor β} (hf : Follows t source shown Q (f l) (g l.position) l) :
    Follows t source shown Q (get >>= f) (get >>= g) l := ⟨hf.stands, hf.agrees, hf.answer, hf.fault⟩

/-- A text is read out from the cursor on. -/
theorem Follows.upTo {g : List Char → Cursor β} {stop : Nat} {text : List Char}
    (hslice : slice? source l.position stop = some text) (hf : Follows t source shown Q x (g text) l) :
    Follows t source shown Q x (Cursor.upTo source stop >>= g) l := by
  have hcursor : (Cursor.upTo source stop >>= g) l.position = g text l.position := by
    rw [Cursor.bind_apply, Cursor.upTo, hslice]
    rfl
  exact ⟨hf.stands, hcursor.trans hf.agrees, hf.answer, hf.fault⟩

/-- Noting a line moves nothing. -/
theorem Follows.note {mark : LineMark} {f : PUnit → Lexing α} (hf : Follows t source shown Q (f ⟨⟩) y { l with mark }) :
    Follows t source shown Q (set { l with mark } >>= f) y l := ⟨hf.stands, hf.agrees, hf.answer, hf.fault⟩

variable (shown Q) in
/-- A lexer moves on over a text that comes next, and the cursor by the bytes of the text. -/
theorem Follows.move {a : α} {text rest : List Char} (h : Stands t source l) (hrest : l.rest = text ++ rest)
    (mark : LineMark) (interner : Interner) (ha : Q (shown a)) :
    Follows t source shown Q
      (do
        set { l.past text rest with mark, interner }
        return a)
      (do
        set (l.position + byteCount text)
        return shown a) l where
  stands := h.past hrest mark interner
  agrees := rfl
  answer := by
    rintro _ ⟨⟩
    exact ha
  fault := nofun

theorem follows_advance (hsize : byteCount source ≤ Span.limit) (h : Stands t source l) :
    Follows t source id (fun _ => True) Lexer.advance (Cursor.advance source) l := by
  have hskip : Lexer.advance l = Lexer.skip l := Lexer.advance_eq_skip h.toAt
  have hmoved := h.onward (onward_advance l)
  refine ⟨hmoved, ?_, fun _ _ => trivial, fun e he => ?_⟩
  · rw [Cursor.advance, h.skip_eq, hskip, outcome]
    cases (Lexer.skip l).1 <;> rfl
  · rw [hskip] at he hmoved
    cases hfault : Lexer.skip l with
    | mk result l' =>
      rw [hfault] at he hmoved
      dsimp only at he hmoved
      subst he
      refine ⟨l'.rest, ?_⟩
      rw [Lexer.skip_fault hfault, Lexer.fault, hmoved.text]
      exact hmoved.covers_rest hsize

/-! ### Requests of a lexer and of its cursor -/

theorem follows_peekByte? (hsize : byteCount source ≤ Span.limit) (h : Stands t source l) :
    Follows t source id (fun _ => True) Lexer.peekByte? (Cursor.peekByte? source) l :=
  (follows_advance hsize h).bind fun _ l' hl' _ => .read hl' <| by
    have hnext : l'.nextByte? = (Matcher.bytes l'.rest).head? := by
      rw [nextByte?_eq, Lexer.upcoming, hl'.split, List.nil_append]
    rw [← hnext]
    exact .pure hl' trivial

theorem follows_hasRemaining (hsize : byteCount source ≤ Span.limit) (h : Stands t source l) :
    Follows t source id (fun _ => True) Lexer.hasRemaining (Cursor.hasRemaining source) l :=
  (follows_peekByte? hsize h).bind fun _ _ hl' _ => .pure hl' trivial

/-- A byte of ASCII that comes next is a whole character. -/
theorem Stands.pastByte (h : Stands t source l) {b : UInt8} (hb : b < 128) (hnext : l.nextByte? = some b) :
    ∃ rest, l.rest = [Char.ofUInt8 b] ++ rest ∧ l.pastByte = l.past [Char.ofUInt8 b] rest := by
  rw [nextByte?_eq, Lexer.upcoming, h.split, List.nil_append, head?_bytes_eq_iff hb] at hnext
  obtain ⟨rest, hrest⟩ := List.head?_eq_some_iff.1 hnext
  refine ⟨rest, hrest, ?_⟩
  simp [Lexer.pastByte, Lexer.past, h.split, hrest, Matcher.bytes, encode_ofUInt8 hb, byteCount_singleton,
    utf8Size_ofUInt8 hb]

theorem follows_consumeByte {definitions : List (String × List String)} (hsize : byteCount source ≤ Span.limit)
    (h : Stands (.ofGroups definitions) source l) {b : UInt8} (hb : b < 128) :
    Follows (.ofGroups definitions) source id (fun _ => True) (Lexer.consumeByte b)
      (Cursor.consumeByte source (.ofGroups definitions) b) l :=
  (follows_advance hsize h).bind fun _ l' hl' _ => .read hl' <| by
    have hnext : (Matcher.bytes l'.rest).head? = l'.nextByte? := by
      rw [nextByte?_eq, Lexer.upcoming, hl'.split, List.nil_append]
    have hlong : (SymbolTable.ofGroups definitions).all.longestMatch? (Matcher.bytes l'.rest) =
        l'.symbols.all.longestIn? l'.readable := by
      rw [hl'.readable, hl'.symbols]
      exact (Matcher.longestIn?_eq_longestMatch? _ _).symm
    rw [hnext, hlong]
    split
    · rename_i hcond
      obtain ⟨rest, hrest, hpast⟩ := hl'.pastByte hb hcond.1
      rw [hpast]
      refine .offset ?_
      have hmove := Follows.move id (fun _ => True) (a := true) hl' hrest l'.mark l'.interner trivial
      rw [byteCount_singleton, utf8Size_ofUInt8 hb] at hmove
      exact hmove
    · exact .pure hl' trivial

theorem isEmpty_bytes (text : List Char) : (Matcher.bytes text).isEmpty = text.isEmpty := by
  cases text with
  | nil => rfl
  | cons c text =>
    obtain ⟨first, others, hencode, -⟩ := continues_encode c
    rw [Matcher.bytes_cons, hencode]
    rfl

section
variable {definitions : List (String × List String)} (hsize : byteCount source ≤ Span.limit)
  (h : Stands (.ofGroups definitions) source l)
include hsize h

theorem follows_consumeSymbol? (group : OperatorGroup) :
    Follows (.ofGroups definitions) source (Option.map Name.text) (fun _ => True) (Lexer.consumeSymbol? group)
      (Cursor.consumeSymbol? source (.ofGroups definitions) group) l :=
  (follows_advance hsize h).bind fun _ l' hl' _ => .read hl' <| by
    have hlong (symbols : List String) := Matcher.longestIn?_eq_longestMatch? symbols l'.rest
    have hgroup : ((SymbolTable.ofGroups definitions).group? group.name).bind (·.longestMatch? (Matcher.bytes l'.rest)) =
        ((SymbolTable.ofGroups definitions).group? group.name).bind (·.longestIn? l'.rest) := by
      cases hfound : (SymbolTable.ofGroups definitions).group? group.name with
      | none => rfl
      | some m =>
        obtain ⟨symbols, rfl⟩ := SymbolTable.eq_ofSymbols_of_group? hfound
        exact (hlong symbols).symm
    have hall : (SymbolTable.ofGroups definitions).all.longestMatch? (Matcher.bytes l'.rest) =
        (SymbolTable.ofGroups definitions).all.longestIn? l'.rest := (hlong _).symm
    rw [hgroup, hall, isEmpty_bytes, hl'.readable, hl'.symbols]
    split
    · exact .pure hl' trivial
    cases ((SymbolTable.ofGroups definitions).group? group.name).bind (·.longestIn? l'.rest) with
    | none => exact .pure hl' trivial
    | some symbol =>
      dsimp only
      split
      · rename_i hsymbol
        have hmove := Follows.move (Option.map Name.text) (fun _ => True)
          (a := some (l'.interner.intern symbol).1) hl' (Matcher.eq_append_drop_of_longestIn? hsymbol) l'.mark
          (l'.interner.intern symbol).2 trivial
        rw [Option.map_some, Interner.text_intern, byteCount_toList] at hmove
        exact .offset hmove
      · exact .pure hl' trivial

theorem follows_consumeText (text : String) :
    Follows (.ofGroups definitions) source id (fun _ => True) (Lexer.consumeText text)
      (Cursor.consumeText source (.ofGroups definitions) text) l :=
  (follows_advance hsize h).bind fun _ l' hl' _ => .read hl' <| by
    have hall : (SymbolTable.ofGroups definitions).all.longestMatch? (Matcher.bytes l'.rest) =
        (SymbolTable.ofGroups definitions).all.longestIn? l'.rest := (Matcher.longestIn?_eq_longestMatch? _ _).symm
    rw [hall, isEmpty_bytes, hl'.readable, hl'.symbols]
    split
    · rename_i hcond
      refine .offset ?_
      rw [← byteCount_toList]
      have hsymbol := of_decide_eq_true (Bool.and_eq_true_iff.1 hcond).2
      exact .move _ _ hl' (Matcher.eq_append_drop_of_longestIn? hsymbol) l'.mark l'.interner trivial
    · exact .pure hl' trivial

end

/-- What is shown of a token is the text of the source at its span. -/
def Placed (source : List Char) (token : Piece × Span × Option String) : Prop :=
  token.2.1.Covers source token.1.text.toList

/-- A token is taken by its bytes. -/
theorem follows_take (hsize : byteCount source ≤ Span.limit) (h : Stands t source l) (kind : TokenKind)
    {text rest : List Char} (hrest : l.rest = text ++ rest) :
    Follows t source Reply.ofToken (Placed source) (Lexer.take kind text rest)
      (Cursor.finish source kind (byteCount text)) l := by
  have hplaced (name : Option Name) : Placed source
      (Reply.ofToken ⟨kind, String.ofList text, .between l.position (l.position + byteCount text), name⟩) := by
    rw [Placed, Reply.ofToken, Token.piece, String.toList_ofList]
    exact h.covers hsize hrest
  have hmove (interner : Interner) (name : Option Name) := Follows.move _ _ h hrest l.mark interner (hplaced name)
  have hname := Interner.text_intern l.interner (String.ofList text)
  have hread := h.slice hrest
  cases kind with
  | number => exact .get (.upTo hread (hmove l.interner none))
  | string => exact .get (.upTo hread (hmove l.interner none))
  | identifier =>
    have hmove' := hmove (l.interner.intern (String.ofList text)).2 (some (l.interner.intern (String.ofList text)).1)
    rw [Reply.ofToken, Option.map_some, hname] at hmove'
    exact .get (.upTo hread hmove')
  | symbol =>
    have hmove' := hmove (l.interner.intern (String.ofList text)).2 (some (l.interner.intern (String.ofList text)).1)
    rw [Reply.ofToken, Option.map_some, hname] at hmove'
    exact .get (.upTo hread hmove')

theorem Follows.some {x : Lexing Token} {y : Cursor (Piece × Span × Option String)}
    (hx : Follows t source Reply.ofToken (Placed source) x y l) :
    Follows t source (Option.map Reply.ofToken) (fun token => ∀ t ∈ token, Placed source t) (Option.some <$> x)
      (Option.some <$> y) l :=
  hx.map (fun _ => rfl) <| by
    rintro token htoken _ ⟨⟩
    exact htoken

theorem follows_nextIdentifier? (hsize : byteCount source ≤ Span.limit) (h : Stands t source l) :
    Follows t source (Option.map Reply.ofToken) (fun token => ∀ t ∈ token, Placed source t)
      Lexer.nextIdentifier? (Cursor.nextIdentifier? source) l :=
  (follows_advance hsize h).bind fun _ l' hl' _ => .read hl' <| by
    rw [head?_bytes ascii_isIdentStart, hl'.readable]
    cases hrest : l'.rest with
    | nil => exact .pure hl' nofun
    | cons c after =>
      rw [List.head?_cons, Option.any_some]
      dsimp only
      split
      · rename_i hident
        rw [identifier_bytes (ascii_isIdentStart c hident)]
        exact .some (follows_take hsize hl' .identifier (hrest.trans (Lexeme.identifier_append _).symm))
      · exact .pure hl' nofun

/-- A string is gone through by its bytes, and refused up to where it breaks off. -/
theorem follows_takeString (hsize : byteCount source ≤ Span.limit) (h : Stands t source l) {quote : UInt8}
    (hquote : quote < 128) {after : List Char} (hrest : l.rest = Char.ofUInt8 quote :: after) :
    Follows t source Reply.ofToken (Placed source) (Lexer.takeString (Char.ofUInt8 quote) after)
      (Cursor.takeString source quote (Matcher.bytes after)) l := by
  have happend := Lexeme.stringTail_append (Char.ofUInt8 quote) after
  have hbytes := stringTail_bytes hquote after
  refine .get ?_
  rw [hbytes]
  generalize Lexeme.stringTail (Char.ofUInt8 quote) after = scanned at happend ⊢
  obtain ⟨tail, behind, ending⟩ := scanned
  have hwhole : l.rest = (Char.ofUInt8 quote :: tail) ++ behind := by rw [hrest, List.cons_append, happend]
  have hcount : 1 + byteCount tail = byteCount (Char.ofUInt8 quote :: tail) := by
    rw [byteCount_cons, utf8Size_ofUInt8 hquote]
  have hnoted (mark : LineMark) : Stands t source { l with mark } := h.onward ⟨rfl, rfl, rfl, [], rfl, rfl, fun _ => rfl⟩
  refine .note ?_
  cases ending with
  | closed =>
    dsimp only
    rw [hcount]
    exact follows_take hsize (hnoted _) .string hwhole
  | unterminated =>
    dsimp only
    rw [hcount]
    exact .throw (e := Lexer.fault { l with mark := _ } .unterminatedString l.position
      (l.past (Char.ofUInt8 quote :: tail) behind).position _) (hnoted _) (h.covers hsize hwhole)

/-- The longest symbol is taken by its bytes, and a character where none begins is refused. -/
theorem follows_takeSymbol {definitions : List (String × List String)} (hsize : byteCount source ≤ Span.limit)
    (h : Stands (.ofGroups definitions) source l) {c : Char} {after : List Char} (hrest : l.rest = c :: after) :
    Follows (.ofGroups definitions) source Reply.ofToken (Placed source) (Lexer.takeSymbol c)
      (Cursor.takeSymbol source (.ofGroups definitions)) l :=
  .read h <| by
    have hlong : (SymbolTable.ofGroups definitions).all.longestMatch? (Matcher.bytes l.rest) =
        (SymbolTable.ofGroups definitions).all.longestIn? l.rest := (Matcher.longestIn?_eq_longestMatch? _ _).symm
    rw [hlong, h.symbols]
    cases hsymbol : (SymbolTable.ofGroups definitions).all.longestIn? l.rest with
    | some symbol =>
      dsimp only
      rw [← byteCount_toList]
      exact follows_take hsize h .symbol (Matcher.eq_append_drop_of_longestIn? hsymbol)
    | none =>
      refine .offset (.upTo h.slice_rest ?_)
      have hcovers := h.covers hsize (show l.rest = [c] ++ after from hrest)
      rw [byteCount_singleton] at hcovers
      rw [hrest, List.headD_cons]
      exact .throw (e := l.fault (.unexpectedCharacter c) l.position (l.position + c.utf8Size) l.position) h hcovers

theorem follows_nextToken? {definitions : List (String × List String)} (hsize : byteCount source ≤ Span.limit)
    (h : Stands (.ofGroups definitions) source l) :
    Follows (.ofGroups definitions) source (Option.map Reply.ofToken) (fun token => ∀ t ∈ token, Placed source t)
      Lexer.nextToken? (Cursor.nextToken? source (.ofGroups definitions)) l :=
  (follows_advance hsize h).bind fun _ l' hl' _ => .read hl' <| by
    rw [hl'.readable]
    cases hrest : l'.rest with
    | nil => exact .pure hl' nofun
    | cons c after =>
      obtain ⟨first, others, hencode, -⟩ := continues_encode c
      have hinput : Matcher.bytes (c :: after) = first :: (others ++ Matcher.bytes after) := by
        rw [Matcher.bytes_cons, hencode, List.cons_append]
      have hfirst {p : Char → Bool} (hp : Ascii p) : isIn p first = p c := by
        have hhead := head?_bytes hp (c :: after)
        rwa [hinput] at hhead
      have hpoint : (isIn (· = '.') first && (others ++ Matcher.bytes after).head?.any (isIn Char.isDigit)) =
          (decide (c = '.') && after.head?.any Char.isDigit) := by
        rw [hfirst (ascii_eq (by decide))]
        by_cases hc : c = '.'
        · subst hc
          obtain ⟨-, rfl⟩ := List.cons.inj hencode
          rw [List.nil_append, head?_bytes ascii_isDigit]
        · rw [decide_eq_false hc, Bool.false_and, Bool.false_and]
      rw [hinput]
      dsimp only
      rw [← hinput, hpoint, hfirst (ascii_eq (by decide)), hfirst ascii_isDigit, hfirst ascii_isIdentStart,
        hfirst ascii_isQuote]
      refine .ite (decide_eq_true_iff).symm (fun hzero => ?_) fun _ => .ite .rfl (fun _ => ?_) fun _ =>
        .ite .rfl (fun hident => ?_) fun _ => .ite .rfl (fun hquote => ?_) fun _ => ?_
      · subst hzero
        rw [fromZero_bytes]
        exact .some (follows_take hsize hl' .number (hrest.trans (Lexeme.fromZero_append _).symm))
      · rw [decimal_bytes]
        exact .some (follows_take hsize hl' .number (hrest.trans (Lexeme.decimal_append _).symm))
      · rw [identifier_bytes (ascii_isIdentStart c hident)]
        exact .some (follows_take hsize hl' .identifier (hrest.trans (Lexeme.identifier_append _).symm))
      · rcases encode_cases c with ⟨b, hb, hsingle, rfl⟩ | ⟨hwide, -⟩
        · rw [hsingle] at hencode
          obtain ⟨rfl, rfl⟩ := List.cons.inj hencode
          exact .some (follows_takeString hsize hl' hb hrest)
        · exact absurd (ascii_isQuote c hquote) (Nat.not_lt.2 hwide)
      · exact .some (follows_takeSymbol hsize hl' hrest)

section
variable {definitions : List (String × List String)} (hsize : byteCount source ≤ Span.limit)
  (h : Stands (.ofGroups definitions) source l)
include hsize h

/-- A token that is looked at is put back by the lexer, and the cursor goes back. -/
theorem follows_peekToken? :
    Follows (.ofGroups definitions) source (Option.map Reply.ofToken) (fun token => ∀ t ∈ token, Placed source t)
      Lexer.peekToken? (Cursor.peekToken? source (.ofGroups definitions)) l :=
  (follows_advance hsize h).bind fun _ l' hl' _ => by
    have hnext := follows_nextToken? hsize hl'
    refine ⟨⟨⟨hnext.stands.split, hnext.stands.symbols, rfl⟩, hnext.stands.text, hl'.halves⟩, ?_, hnext.answer,
      hnext.fault⟩
    dsimp only
    rw [hnext.agrees]
    rfl

/-- What is found is read out behind a fault, too. -/
theorem follows_foundText :
    Follows (.ofGroups definitions) source id (fun _ => True)
      (fun l => (.ok (Lexer.foundText l).1, (Lexer.foundText l).2)) (Cursor.foundText source (.ofGroups definitions))
      l := by
  have hpeek := follows_peekToken? hsize h
  obtain ⟨hstands, hagrees, -, -⟩ := hpeek
  have hcursor : Cursor.foundText source (.ofGroups definitions) l.position =
      some (.ok (Lexer.foundText l).1, (Lexer.foundText l).2.position) := by
    rw [Cursor.foundText, hagrees, Lexer.foundText]
    have hrun : Lexer.peekToken?.run l = Lexer.peekToken? l := rfl
    rw [hrun]
    cases hanswer : Lexer.peekToken? l with
    | mk answer l' =>
      rw [hanswer] at hstands
      cases answer with
      | ok token => cases token <;> rfl
      | error e =>
        show ((slice? source l'.position (byteCount source)).bind fun rest =>
          (slice? rest 0 (byteCount (rest.take 1))).bind fun text =>
            some (Except.ok (String.ofList text), l'.position)) = _
        rw [hstands.slice_rest, Option.bind_some, slice?_take, Option.bind_some, ← hstands.readable]
  rw [← snd_foundText] at hstands
  refine ⟨hstands, hcursor, fun _ _ => trivial, ?_⟩
  rintro _ ⟨⟩

end

end

/-! ### Sessions -/

/-- A request to a lexer or to its cursor. A single byte has to be of ASCII. -/
inductive Ask where
  | advance
  | peekByte
  | hasRemaining
  | consume (b : UInt8) (ascii : b < 128)
  | consumeSymbol (group : OperatorGroup)
  | consumeText (text : String)
  | nextIdentifier
  | nextToken
  | peekToken
  | foundText

namespace Ask

/-- What a lexer answers. -/
def ofLexer : Ask → Lexing Reply
  | advance => (fun _ => .done) <$> Lexer.advance
  | peekByte => .byte <$> Lexer.peekByte?
  | hasRemaining => .flag <$> Lexer.hasRemaining
  | consume b _ => .flag <$> Lexer.consumeByte b
  | consumeSymbol group => (fun name => .name (name.map Name.text)) <$> Lexer.consumeSymbol? group
  | consumeText text => .flag <$> Lexer.consumeText text
  | nextIdentifier => (fun token => .token (token.map Reply.ofToken)) <$> Lexer.nextIdentifier?
  | nextToken => (fun token => .token (token.map Reply.ofToken)) <$> Lexer.nextToken?
  | peekToken => (fun token => .token (token.map Reply.ofToken)) <$> Lexer.peekToken?
  | foundText => .text <$> fun l => (.ok (Lexer.foundText l).1, (Lexer.foundText l).2)

/-- What a cursor answers. -/
def ofCursor (source : List Char) (t : SymbolTable) : Ask → Cursor Reply
  | advance => (fun _ => .done) <$> Cursor.advance source
  | peekByte => .byte <$> Cursor.peekByte? source
  | hasRemaining => .flag <$> Cursor.hasRemaining source
  | consume b _ => .flag <$> Cursor.consumeByte source t b
  | consumeSymbol group => .name <$> Cursor.consumeSymbol? source t group
  | consumeText text => .flag <$> Cursor.consumeText source t text
  | nextIdentifier => .token <$> Cursor.nextIdentifier? source
  | nextToken => .token <$> Cursor.nextToken? source t
  | peekToken => .token <$> Cursor.peekToken? source t
  | foundText => .text <$> Cursor.foundText source t

end Ask

/-- The lexer after some requests, one after the other, whether it answers or faults. -/
def lexerAfter (l : Lexer) (asks : List Ask) : Lexer := asks.foldl (fun l ask => (ask.ofLexer l).2) l

/-- Where the cursor is after some requests, if it does not panic in between. -/
def cursorAfter? (source : List Char) (t : SymbolTable) (position : Nat) (asks : List Ask) : Option Nat :=
  asks.foldlM (fun position ask => (ask.ofCursor source t position).map Prod.snd) position

/-- A reply with no token or with one that is the text of the source at its span. -/
def ReplyPlaced (source : List Char) (reply : Reply) : Prop := ∀ token, reply = .token (some token) → Placed source token

section
variable {definitions : List (String × List String)} {source : List Char} {l : Lexer}
  (hsize : byteCount source ≤ Span.limit)
include hsize

theorem follows_ask (h : Stands (.ofGroups definitions) source l) (ask : Ask) :
    Follows (.ofGroups definitions) source id (ReplyPlaced source) ask.ofLexer
      (ask.ofCursor source (.ofGroups definitions)) l := by
  have hnone {reply : Reply} (hreply : ∀ token, reply ≠ .token (some token)) : ReplyPlaced source reply :=
    fun token htoken => absurd htoken (hreply token)
  have hplaced {token : Option (Piece × Span × Option String)} (htoken : ∀ t ∈ token, Placed source t) :
      ReplyPlaced source (.token token) := by
    rintro t ⟨⟩
    exact htoken t rfl
  cases ask with
  | advance => exact (follows_advance hsize h).map (fun _ => rfl) fun _ _ => hnone nofun
  | peekByte => exact (follows_peekByte? hsize h).map (fun _ => rfl) fun _ _ => hnone nofun
  | hasRemaining => exact (follows_hasRemaining hsize h).map (fun _ => rfl) fun _ _ => hnone nofun
  | consume b ascii => exact (follows_consumeByte hsize h ascii).map (fun _ => rfl) fun _ _ => hnone nofun
  | consumeSymbol group => exact (follows_consumeSymbol? hsize h group).map (fun _ => rfl) fun _ _ => hnone nofun
  | consumeText text => exact (follows_consumeText hsize h text).map (fun _ => rfl) fun _ _ => hnone nofun
  | nextIdentifier => exact (follows_nextIdentifier? hsize h).map (fun _ => rfl) fun _ => hplaced
  | nextToken => exact (follows_nextToken? hsize h).map (fun _ => rfl) fun _ => hplaced
  | peekToken => exact (follows_peekToken? hsize h).map (fun _ => rfl) fun _ => hplaced
  | foundText => exact (follows_foundText hsize h).map (fun _ => rfl) fun _ _ => hnone nofun

/-- Whatever is asked for, the cursor does not panic and is where the lexer stands. -/
theorem cursorAfter?_eq (h : Stands (.ofGroups definitions) source l) (asks : List Ask) :
    cursorAfter? source (.ofGroups definitions) l.position asks = some (lexerAfter l asks).position ∧
      Stands (.ofGroups definitions) source (lexerAfter l asks) := by
  induction asks generalizing l with
  | nil => exact ⟨rfl, h⟩
  | cons ask asks ih =>
    have hask := follows_ask hsize h ask
    obtain ⟨hcursor, hstands⟩ := ih hask.stands
    refine ⟨?_, hstands⟩
    rw [cursorAfter?, List.foldlM_cons, hask.agrees]
    exact hcursor

end

/-- A span lies between two boundaries of a source. -/
def Inside (source : List Char) (s : Span) : Prop :=
  Boundary source s.start ∧ Boundary source s.stop ∧ s.start ≤ s.stop

/-- A span covers a text exactly if that can be read out. -/
theorem covers_iff {source text : List Char} {s : Span} :
    s.Covers source text ↔ slice? source s.start s.stop = some text := by
  rw [slice?_eq_some_iff, Span.Covers]
  refine exists_congr fun before => exists_congr fun after => and_congr_right fun _ => ?_
  obtain ⟨start, stop⟩ := s
  rw [Span.mk.injEq]

theorem Inside.of_covers {source text : List Char} {s : Span} (h : s.Covers source text) : Inside source s :=
  isSome_slice?_iff.1 (Option.isSome_iff_exists.2 ⟨text, covers_iff.1 h⟩)

/-- What holds wherever a lexer stands: the cursor is on a boundary, it answers whatever is asked for next without a
panic and as the lexer does, every token and every error that this brings lies between boundaries, and so
does what the errors of a parser quote. -/
structure Undivided (t : SymbolTable) (source : List Char) (l : Lexer) : Prop where
  position : Boundary source l.position
  answers : ∀ ask : Ask, ask.ofCursor source t l.position =
    some ((ask.ofLexer l).1.mapError LexicalError.refusal, (ask.ofLexer l).2.position)
  tokens : ∀ (ask : Ask) (piece : Piece) (span : Span) (name : Option String),
    (ask.ofLexer l).1 = .ok (.token (some (piece, span, name))) →
      Inside source span ∧ slice? source span.start span.stop = some piece.text.toList
  faults : ∀ (ask : Ask) (e : LexicalError), (ask.ofLexer l).1 = .error e → Inside source e.span
  trailing : ∃ (excerpt : List Char) (e : ParseError), excerpt? source l.position = some excerpt ∧
    (Parsing.trailing : Parsing Expr) l = .error e ∧ e.fault = .trailingInput (String.ofList excerpt) ∧
      Inside source e.span
  unexpected : ∀ expected : String, ∃ (found : String) (stop : Nat) (e : ParseError),
    Cursor.foundText source t l.position = some (.ok found, stop) ∧
      (Parsing.unexpected expected : Parsing Expr) l = .error e ∧ e.fault = .unexpectedToken expected found

theorem Stands.undivided {definitions : List (String × List String)} {source : List Char} {l : Lexer}
    (hsize : byteCount source ≤ Span.limit) (h : Stands (.ofGroups definitions) source l) :
    Undivided (.ofGroups definitions) source l where
  position := h.boundary
  answers ask := by
    have hask := (follows_ask hsize h ask).agrees
    rw [hask]
    cases (ask.ofLexer l).1 <;> rfl
  tokens ask piece span name htoken := by
    have hplaced := (follows_ask hsize h ask).answer _ htoken _ rfl
    exact ⟨.of_covers hplaced, covers_iff.1 hplaced⟩
  faults ask e he := by
    obtain ⟨text, hcovers⟩ := (follows_ask hsize h ask).fault e he
    exact .of_covers hcovers
  trailing := by
    refine ⟨l.rest.take 20, _, ?_, rfl, rfl, ?_⟩
    · rw [excerpt?, h.slice_rest]
      exact slice?_take l.rest 20
    · rw [h.text]
      exact .of_covers (h.covers_rest hsize)
  unexpected expected := ⟨_, _, _, (follows_foundText hsize h).agrees, rfl, rfl⟩

/-- Whatever a lexer with any table is asked for, of single bytes only such of ASCII, and also after faults, the cursor
over the bytes of its source never panics and is never inside of a character. -/
theorem cursor_undivided (definitions : List (String × List String)) {source : String}
    (hsize : source.utf8ByteSize < 2 ^ 32) (asks : List Ask) :
    let l := lexerAfter (.ofSource source (.ofGroups definitions)) asks
    cursorAfter? source.toList (.ofGroups definitions) 0 asks = some l.position ∧
      Undivided (.ofGroups definitions) source.toList l := by
  have hlimit : byteCount source.toList ≤ Span.limit := by
    rw [byteCount_toList]
    exact Nat.le_of_lt_succ hsize
  obtain ⟨hcursor, hstands⟩ := cursorAfter?_eq hlimit (stands_ofSource source _) asks
  exact ⟨hcursor, hstands.undivided hlimit⟩

/-- An opening quote is taken by itself, and so is a backslash; what follows them is no string any more. -/
theorem cursor_undivided_accents :
    let asks := [.consume 39 (by decide), .nextToken, .nextToken, .foundText, .consume 92 (by decide), .nextToken,
      .nextToken]
    let definitions := [("Unary", ["é", "√"])]
    let l := lexerAfter (.ofSource "'é\\√' é" (.ofGroups definitions)) asks
    "'é\\√' é".utf8ByteSize < 2 ^ 32 ∧
      (cursorAfter? "'é\\√' é".toList (.ofGroups definitions) 0 asks = some l.position ∧
        Undivided (.ofGroups definitions) "'é\\√' é".toList l) ∧ l.position = 7 :=
  ⟨by decide, cursor_undivided _ (by decide) _, by decide +kernel⟩

end Bytewise

end LatentExpr
