import LatentExpr.Proofs.Grammar.Requests
import LatentExpr.Proofs.Token.Faulted

/-!
Where a source fails to parse. Every error of the parser points at a text of the source (`pointed_of_parse`): what
was not expected is refused before the next token, a token that is taken is pointed at by its own span, and a
target of an assignment is pointed at from where it starts. For the last of them a step of the parser has to keep
what was read before it, whatever that was; so this is what is shown of every step that does not fail.
-/
namespace LatentExpr

open Lexer

/-! ### Positions -/

namespace Lexer
variable {t : SymbolTable} {source before : List Char} {l l' : Lexer}

theorem Onward.position_le (h : l.Onward l') : l.position ≤ l'.position := by
  obtain ⟨text, -, hposition, -⟩ := h.text
  omega

theorem position_le_consumeByte (b : UInt8) (l : Lexer) : l.position ≤ (consumeByte b l).2.position := by
  obtain ⟨start, hmoved, hstays | ⟨-, htaken⟩⟩ := consumeByte_cases b l
  · rw [hstays]
    exact hmoved.position_le
  · have hpast : start.pastByte.position = start.position + 1 := by
      unfold pastByte
      split <;> rfl
    rw [htaken, hpast]
    exact Nat.le_add_right_of_le hmoved.position_le

/-- A lexer that keeps track has read some text and maybe more. -/
def Since (t : SymbolTable) (source before : List Char) (l : Lexer) : Prop :=
  ∃ more, Tracked t source (before ++ more) l

theorem Since.tracking (h : Since t source before l) : Tracking t source l := by
  obtain ⟨more, h⟩ := h
  exact ⟨_, h⟩

theorem Since.table (h : Since t source before l) : l.symbols = t := by
  obtain ⟨more, h⟩ := h
  exact h.table

/-- A request that keeps track and does not go back keeps what was read. -/
theorem keeps_since {α : Type} {x : Lexing α} (hx : ∀ l, Tracking t source l → Tracking t source (x l).2)
    (hmoves : ∀ l : Lexer, l.symbols = t → l.position ≤ (x l).2.position) :
    Lexing.Keeps (Since t source before) x := by
  intro l l' a h hok
  have htracking := hx l h.tracking
  obtain ⟨more, h⟩ := h
  have hposition := hmoves l h.table
  rw [hok] at htracking hposition
  obtain ⟨read, h'⟩ := htracking
  have hbefore : before <+: source := ⟨more ++ l.rest, by rw [← List.append_assoc, ← h.halves]⟩
  have hle : byteCount before ≤ byteCount read := by
    rw [h.position, h'.position, byteCount_append] at hposition
    omega
  obtain ⟨more', rfl⟩ := prefix_of_byteCount_le hbefore ⟨l'.rest, h'.halves.symm⟩ hle
  exact ⟨more', h'⟩

theorem keeps_of_moves {α : Type} {x : Lexing α} (hx : ∀ l, Tracking t source l → Tracking t source (x l).2)
    (hmoves : Lexing.Moves t x) : Lexing.Keeps (Since t source before) x :=
  keeps_since hx fun l hl => (hmoves l hl).position_le

theorem punctuation_plain : ∀ c ∈ Lexeme.punctuation,
    (String.utf8EncodeChar c).headD 0 < 128 ∧
      Text.isQuote (Char.ofUInt8 ((String.utf8EncodeChar c).headD 0)) = false :=
  forall_mem_of_all (by decide)

theorem Tracking.consume (h : Tracking t source l) {c : Char} (hc : c ∈ Lexeme.punctuation) :
    Tracking t source (Lexer.consume c l).2 :=
  h.consumeByte (punctuation_plain c hc).1 (punctuation_plain c hc).2

end Lexer

/-! ### Steps of reading -/

namespace Parsing
variable {α β : Type} {t : SymbolTable} {source before : List Char} {I I' : Lexer → Prop}
  {J J' : α → Lexer → Prop} {K : β → Lexer → Prop} {x : Parsing α} {f : α → Parsing β}

/-- A step of reading leaves the lexer as said, or ends with an error that points at a text of the source. -/
def Ends (source : List Char) (I : Lexer → Prop) (x : Parsing α) (J : α → Lexer → Prop) : Prop :=
  ∀ l, I l → match x l with
    | .ok (a, l') => J a l'
    | .error e => e.Pointed source

theorem Ends.mono (h : Ends source I x J) (hI : ∀ l, I' l → I l) (hJ : ∀ a l, J a l → J' a l) :
    Ends source I' x J' := by
  intro l hl
  have hend := h l (hI l hl)
  cases hx : x l with
  | error e =>
    rw [hx] at hend
    exact hend
  | ok answer =>
    rw [hx] at hend
    exact hJ _ _ hend

theorem Ends.pure {a : α} (h : ∀ l, I l → J a l) : Ends source I (Pure.pure a) J := h

theorem Ends.bind (hx : Ends source I x J) (hf : ∀ a, Ends source (J a) (f a) K) : Ends source I (x >>= f) K := by
  intro l hl
  have hend := hx l hl
  rw [bind_apply]
  cases hanswer : x l with
  | error e =>
    rw [hanswer] at hend
    exact hend
  | ok answer =>
    rw [hanswer] at hend
    exact hf _ _ hend

/-- A request that keeps what was read, with what is known of its answer. -/
theorem ends_ask {request : Lexing α} (hkeeps : Lexing.Keeps (Since t source before) request)
    (hfault : ∀ l l' e, Tracking t source l → request l = (.error e, l') →
      (ParseError.ofLexical e).Pointed source)
    (hJ : ∀ l l' a, Tracking t source l → request l = (.ok a, l') → J a l') :
    Ends source (Since t source before) (ask request) fun a l => Since t source before l ∧ J a l := by
  intro l hl
  cases hanswer : request l with
  | mk answer l' =>
    have hrun : request.run l = (answer, l') := hanswer
    rw [ask, hrun]
    cases answer with
    | ok a => exact ⟨hkeeps hl hanswer, hJ l l' a hl.tracking hanswer⟩
    | error e => exact hfault l l' e hl.tracking hanswer

/-- A step of reading points at a text of the source where it fails, and keeps what was read where it does not. -/
def Points (t : SymbolTable) (source : List Char) (x : Parsing α) : Prop :=
  ∀ before, Ends source (Since t source before) x fun _ => Since t source before

theorem Points.pure {a : α} : Points t source (Pure.pure a) := fun _ => .pure fun _ h => h

theorem Points.bind (hx : Points t source x) (hf : ∀ a, Points t source (f a)) : Points t source (x >>= f) :=
  fun before => (hx before).bind fun a => hf a before

/-- A step that looks at the lexer may keep all that it has read. -/
theorem Points.get_bind {f : Lexer → Parsing α} (hf : ∀ read l, Tracked t source read l →
    Ends source (Since t source read) (f l) fun _ => Since t source read) : Points t source (get >>= f) := by
  rintro before l ⟨more, h⟩
  refine ((hf _ l h).mono (fun _ h => h) ?_) l ⟨[], by rwa [List.append_nil]⟩
  rintro _ l' ⟨more', h'⟩
  exact ⟨more ++ more', by rwa [← List.append_assoc]⟩

theorem points_ask {request : Lexing α} (hkeeps : ∀ before, Lexing.Keeps (Since t source before) request)
    (hfault : ∀ l l' e, Tracking t source l → request l = (.error e, l') →
      (ParseError.ofLexical e).Pointed source) : Points t source (ask request) := fun before =>
  have hends := ends_ask (hkeeps before) hfault fun _ _ _ _ _ => trivial
  hends.mono (fun _ h => h) fun _ _ h => h.1

/-! ### Errors -/

section
variable (hsize : byteCount source ≤ Span.limit)
include hsize

theorem points_tooDeep : Points t source (tooDeep : Parsing α) := by
  rintro before l ⟨more, h⟩
  have hquotes : ParseFault.tooDeep.Quotes [] := rfl
  exact h.pointed hsize (List.nil_append _).symm hquotes (h.locate _)

theorem points_trailing : Points t source (trailing : Parsing α) := by
  rintro before l ⟨more, h⟩
  exact h.pointed_rest hsize rfl nofun

theorem points_unexpectedToken {expected : String} {token : Token} (h : token.Placed source) :
    Points t source (unexpectedToken expected token : Parsing α) := by
  rintro before l ⟨more, hl⟩
  rw [unexpectedToken, hl.locate]
  exact h.pointed hsize String.ofList_toList.symm nofun

theorem points_invalidKey {token : Token} (h : token.Placed source) :
    Points t source (invalidKey token : Parsing α) := by
  rintro before l ⟨more, hl⟩
  rw [invalidKey, hl.locate]
  exact h.pointed hsize String.ofList_toList.symm nofun

theorem ends_invalidTarget (target : Expr) :
    Ends source (Since t source before) (invalidTarget target (byteCount before) : Parsing α) J := by
  rintro l ⟨more, h⟩
  rw [invalidTarget, h.position, byteCount_append, h.locate]
  have hsource : source = before ++ (more ++ l.rest) := by rw [h.halves, List.append_assoc]
  exact pointed_of_append hsize hsource trivial rfl

variable (ht : t.InLine)
include ht

/-- What comes next is refused before it is taken. -/
theorem ends_unexpected (expected : String) :
    Ends source (fun l => ∃ read, Ready t source read l) (unexpected expected : Parsing α) J := by
  rintro l ⟨read, h⟩
  obtain ⟨rest, hrest⟩ := h.foundText_prefix ht
  obtain ⟨_, hafter⟩ : Tracking t source l.foundText.2 := by
    rw [snd_foundText]
    exact h.tracking.peekToken? ht
  have hquotes : (ParseFault.unexpectedToken expected l.foundText.1).Quotes l.foundText.1.toList :=
    String.ofList_toList.symm
  have hpointed := h.pointed hsize hrest.symm hquotes (hafter.locate _)
  rw [byteCount_toList] at hpointed
  exact hpointed

/-! ### Requests -/

omit hsize ht in
theorem keeps_consume {c : Char} (hc : c ∈ Lexeme.punctuation) :
    Lexing.Keeps (Since t source before) (Lexer.consume c) :=
  -- taking a byte need not move a lexer over whole characters, but it does not go back
  keeps_since (fun _ h => h.consume hc) fun l _ => position_le_consumeByte _ l

omit ht in
theorem points_consume {c : Char} (hc : c ∈ Lexeme.punctuation) : Points t source (consume c) :=
  points_ask (fun _ => keeps_consume hc) fun _ _ _ h => h.pointed_consumeByte hsize

omit ht in
theorem points_advance : Points t source (ask Lexer.advance) :=
  points_ask (fun _ => keeps_of_moves (fun _ h => h.advance) moves_advance) fun _ _ _ h => h.pointed_advance hsize

omit ht in
theorem points_peek? : Points t source peek? := by
  refine points_ask (fun _ => keeps_of_moves (fun _ h => ?_) moves_peek?) fun _ _ _ h => h.pointed_peek? hsize
  exact h.advance_bind fun _ _ hready => hready.tracking

theorem points_hasRemaining : Points t source (ask Lexer.hasRemaining) :=
  points_ask (fun _ => keeps_of_moves (fun _ h => h.perform ht .hasRemaining) moves_hasRemaining)
    fun _ _ _ h => h.pointed_hasRemaining hsize

theorem points_consumeSymbol? (group : OperatorGroup) :
    Points t source (ask (Lexer.consumeSymbol? group)) := by
  obtain ⟨definitions, rfl⟩ := id ht.compiled
  exact points_ask (fun _ => keeps_of_moves (fun _ h => h.consumeSymbol? ht group) (moves_consumeSymbol? group))
    fun _ _ _ h => h.pointed_consumeSymbol? hsize

theorem points_consumeText (text : String) : Points t source (ask (Lexer.consumeText text)) := by
  obtain ⟨definitions, rfl⟩ := id ht.compiled
  exact points_ask (fun _ => keeps_of_moves (fun _ h => h.consumeText ht text) (moves_consumeText text))
    fun _ _ _ h => h.pointed_consumeText hsize

theorem points_operator? (level : Level) : Points t source (operator? level) := by
  cases level with
  | logical op =>
    refine (points_consumeText hsize ht op.symbol).bind fun b => ?_
    cases b with
    | false => exact .pure
    | true => exact .pure
  | binary level => exact (points_consumeSymbol? hsize ht level.group).bind fun _ => .pure

theorem points_expect {c : Char} (hc : c ∈ Lexeme.punctuation) : Points t source (expect c) := fun before => by
  have hconsume : Ends source (Since t source before) (consume c) fun b l =>
      Since t source before l ∧ (b = false → ∃ read, Ready t source read l) :=
    ends_ask (keeps_consume hc) (fun _ _ _ h => h.pointed_consumeByte hsize) fun _ _ b h hok hb =>
      h.ready_of_consumeByte (hb ▸ hok)
  refine hconsume.bind fun b => ?_
  cases b with
  | false => exact (ends_unexpected hsize ht _).mono (fun _ h => h.2 rfl) fun _ _ h => h
  | true => exact .pure fun _ h => h.1

/-- A request for a token, of which the end is refused and a token is looked at. -/
theorem points_token {request : Lexing (Option Token)} {f : Option Token → Parsing α} {expected : String}
    (hkeeps : ∀ before, Lexing.Keeps (Since t source before) request)
    (hfault : ∀ l l' e, Tracking t source l → request l = (.error e, l') →
      (ParseError.ofLexical e).Pointed source)
    (hcases : ∀ l l' answer, Tracking t source l → request l = (.ok answer, l') →
      (answer = none ∧ ∃ read, Ready t source read l') ∨ ∃ token, answer = some token ∧ token.Placed source)
    (hnone : f none = unexpected expected)
    (hsome : ∀ token, token.Placed source → Points t source (f (some token))) :
    Points t source (ask request >>= f) := by
  refine fun before => (ends_ask (hkeeps before) hfault hcases).bind fun answer => ?_
  rintro l ⟨hl, ⟨rfl, hready⟩ | ⟨token, rfl, hplaced⟩⟩
  · rw [hnone]
    have hends : Ends source _ (unexpected expected : Parsing α) fun _ => Since t source before :=
      ends_unexpected hsize ht expected
    exact hends l hready
  · exact hsome token hplaced before l hl

theorem points_nextToken? {f : Option Token → Parsing α} {expected : String} (hnone : f none = unexpected expected)
    (hsome : ∀ token, token.Placed source → Points t source (f (some token))) :
    Points t source (ask Lexer.nextToken? >>= f) := by
  obtain ⟨definitions, rfl⟩ := id ht.compiled
  exact points_token hsize ht (fun _ => keeps_of_moves (fun _ h => h.nextToken? ht) moves_nextToken?)
    (fun _ _ _ h => h.pointed_nextToken? hsize ht) (fun _ _ _ h => h.nextToken?_cases ht) hnone hsome

theorem points_memberName : Points t source memberName := by
  refine points_token hsize ht (fun _ => keeps_of_moves (fun _ h => h.nextIdentifier?) moves_nextIdentifier?)
    (fun _ _ _ h => h.pointed_nextIdentifier? hsize) (fun _ _ _ h => h.nextIdentifier?_cases) rfl
    fun token hplaced => ?_
  dsimp only
  split
  · exact points_unexpectedToken hsize hplaced
  · exact .pure

omit ht in
theorem points_ofToken {token : Token} (h : token.Placed source) : Points t source (ofToken token) := by
  unfold ofToken
  split
  · split
    · exact .pure
    · split
      · exact .pure
      · exact .pure
  · exact .pure
  · exact .pure
  · exact points_unexpectedToken hsize h

end

end Parsing

/-! ### The grammar -/

/-- Every function of the parser points at a text of the source where it fails, with a budget. -/
structure ParsesPointed (t : SymbolTable) (source : List Char) (budget : Nat) : Prop where
  expr : Parsing.Points t source (Parsing.expr budget)
  items : Parsing.Points t source (Parsing.ternaries budget)
  assignment : Parsing.Points t source (Parsing.assignment budget)
  ternary : Parsing.Points t source (Parsing.ternary budget)
  chain : ∀ levels, Parsing.Points t source (Parsing.chain budget levels)
  chainRest : ∀ level tighter left, Parsing.Points t source (Parsing.chainRest budget level tighter left)
  unary : Parsing.Points t source (Parsing.unary budget)
  postfixes : ∀ e, Parsing.Points t source (Parsing.postfixes budget e)
  primary : Parsing.Points t source (Parsing.primary budget)
  elements : ∀ close, Parsing.Points t source (Parsing.elements budget close)
  slots : ∀ close, Parsing.Points t source (Parsing.elementsRest budget close)
  properties : Parsing.Points t source (Parsing.properties budget)
  places : Parsing.Points t source (Parsing.propertiesRest budget)
  property : Parsing.Points t source (Parsing.property budget)

namespace ParsesPointed
variable {t : SymbolTable} {source : List Char} {budget : Nat}

open Parsing

section
variable (hsize : byteCount source ≤ Span.limit) (ht : t.InLine) (ih : ParsesPointed t source budget)
include hsize ih

theorem expr_succ : Points t source (Parsing.expr (budget + 1)) := by
  rw [Parsing.expr]
  refine ih.assignment.bind fun _ => (points_consume hsize (by decide)).bind fun b => ?_
  split
  · exact ih.items.bind fun _ => .pure
  · exact .pure

theorem items_succ : Points t source (Parsing.ternaries (budget + 1)) := by
  rw [Parsing.ternaries]
  refine ih.ternary.bind fun _ => (points_consume hsize (by decide)).bind fun b => ?_
  split
  · exact ih.items.bind fun _ => .pure
  · exact .pure

omit hsize in
theorem chain_succ (levels : List Level) : Points t source (Parsing.chain (budget + 1) levels) := by
  cases levels with
  | nil =>
    rw [Parsing.chain]
    exact ih.unary
  | cons level tighter =>
    rw [Parsing.chain]
    exact (ih.chain tighter).bind fun left => ih.chainRest level tighter left

theorem elements_succ (close : Char) : Points t source (Parsing.elements (budget + 1) close) := by
  rw [Parsing.elements]
  refine (points_peek? hsize).bind fun answer => ?_
  split
  · exact .pure
  · split
    · exact .pure
    · exact ih.slots close

theorem slots_succ (close : Char) : Points t source (Parsing.elementsRest (budget + 1) close) := by
  rw [Parsing.elementsRest]
  have hmore (element : Expr) : Points t source (do
      if ← consume ',' then return element :: (← Parsing.elementsRest budget close) else return [element]) := by
    refine (points_consume hsize (by decide)).bind fun b => ?_
    split
    · exact (ih.slots close).bind fun _ => .pure
    · exact .pure
  refine (points_peek? hsize).bind fun next => ?_
  dsimp only
  split
  · exact Points.pure.bind hmore
  · exact ih.assignment.bind hmore

theorem properties_succ : Points t source (Parsing.properties (budget + 1)) := by
  rw [Parsing.properties]
  refine (points_peek? hsize).bind fun answer => ?_
  split
  · exact .pure
  · split
    · exact .pure
    · exact ih.places

theorem places_succ : Points t source (Parsing.propertiesRest (budget + 1)) := by
  rw [Parsing.propertiesRest]
  have hmore (slot : List Property) : Points t source (do
      if ← consume ',' then return slot ++ (← Parsing.propertiesRest budget) else return slot) := by
    refine (points_consume hsize (by decide)).bind fun b => ?_
    split
    · exact ih.places.bind fun _ => .pure
    · exact .pure
  refine (points_peek? hsize).bind fun next => ?_
  dsimp only
  split
  · exact Points.pure.bind hmore
  · exact (ih.property.bind fun _ => .pure).bind hmore

include ht

/-- A target that cannot be assigned to is pointed at from where the assignment starts. -/
theorem assignment_succ : Points t source (Parsing.assignment (budget + 1)) := by
  rw [Parsing.assignment]
  refine (points_advance hsize).bind fun _ => .get_bind fun read l hread => ?_
  refine (ih.ternary read).bind fun target => (points_consumeSymbol? hsize ht _ read).bind fun answer => ?_
  rw [hread.position]
  split
  · exact .pure fun _ h => h
  · split
    · exact (ih.assignment.bind fun _ => .pure) read
    · exact ends_invalidTarget hsize target

theorem ternary_succ : Points t source (Parsing.ternary (budget + 1)) := by
  rw [Parsing.ternary]
  refine (ih.chain _).bind fun _ => (points_consume hsize (by decide)).bind fun b => ?_
  split
  · exact ih.expr.bind fun _ => (points_expect hsize ht (by decide)).bind fun _ => ih.expr.bind fun _ => .pure
  · exact .pure

theorem chainRest_succ (level : Level) (tighter : List Level) (left : Expr) :
    Points t source (Parsing.chainRest (budget + 1) level tighter left) := by
  rw [Parsing.chainRest]
  refine (points_operator? hsize ht level).bind fun answer => ?_
  split
  · exact .pure
  · exact (ih.chain tighter).bind fun _ => ih.chainRest level tighter _

theorem unary_succ : Points t source (Parsing.unary (budget + 1)) := by
  rw [Parsing.unary]
  refine (points_consumeSymbol? hsize ht _).bind fun answer => ?_
  split
  · exact ih.unary.bind fun _ => .pure
  · exact ih.primary.bind fun e => ih.postfixes e

theorem postfixes_succ (e : Expr) : Points t source (Parsing.postfixes (budget + 1) e) := by
  rw [Parsing.postfixes]
  refine (points_consume hsize (by decide)).bind fun b => ?_
  split
  · exact (ih.elements _).bind fun _ => (points_expect hsize ht (by decide)).bind fun _ => ih.postfixes _
  refine (points_consume hsize (by decide)).bind fun b => ?_
  split
  · exact ih.expr.bind fun _ => (points_expect hsize ht (by decide)).bind fun _ => ih.postfixes _
  refine (points_consume hsize (by decide)).bind fun b => ?_
  split
  · exact (points_memberName hsize ht).bind fun _ => ih.postfixes _
  · exact .pure

theorem primary_succ : Points t source (Parsing.primary (budget + 1)) := by
  rw [Parsing.primary]
  refine (points_consume hsize (by decide)).bind fun b => ?_
  split
  · exact ih.expr.bind fun _ => (points_expect hsize ht (by decide)).bind fun _ => .pure
  refine (points_consume hsize (by decide)).bind fun b => ?_
  split
  · exact (ih.elements _).bind fun _ => (points_expect hsize ht (by decide)).bind fun _ => .pure
  refine (points_consume hsize (by decide)).bind fun b => ?_
  split
  · exact ih.properties.bind fun _ => (points_expect hsize ht (by decide)).bind fun _ => .pure
  · exact points_nextToken? hsize ht rfl fun _ hplaced => points_ofToken hsize hplaced

theorem property_succ : Points t source (Parsing.property (budget + 1)) := by
  rw [Parsing.property]
  have hvalue (make : Expr → Property) : Points t source (do
      expect ':'
      return make (← Parsing.assignment budget)) :=
    (points_expect hsize ht (by decide)).bind fun _ => ih.assignment.bind fun _ => .pure
  refine (points_consume hsize (by decide)).bind fun b => ?_
  split
  · exact ih.assignment.bind fun key => (points_expect hsize ht (by decide)).bind fun _ => hvalue _
  refine points_nextToken? hsize ht rfl fun token hplaced => ?_
  dsimp only
  split
  · exact hvalue _
  · exact hvalue _
  · split
    · exact hvalue _
    · refine (points_consume hsize (by decide)).bind fun b => ?_
      split
      · exact ih.assignment.bind fun _ => .pure
      · exact .pure
  · exact points_invalidKey hsize hplaced

end

/-- Every function of the parser points at a text of the source where it fails. -/
theorem all (hsize : byteCount source ≤ Span.limit) (ht : t.InLine) (budget : Nat) :
    ParsesPointed t source budget := by
  induction budget with
  | zero =>
    constructor
    all_goals intros
    all_goals first
      | rw [Parsing.expr] | rw [Parsing.ternaries] | rw [Parsing.assignment] | rw [Parsing.ternary]
      | rw [Parsing.chain] | rw [Parsing.chainRest] | rw [Parsing.unary] | rw [Parsing.postfixes]
      | rw [Parsing.primary] | rw [Parsing.elements] | rw [Parsing.elementsRest]
      | rw [Parsing.properties] | rw [Parsing.propertiesRest] | rw [Parsing.property]
    all_goals exact points_tooDeep hsize
  | succ budget ih =>
    exact
      { expr := ih.expr_succ hsize
        items := ih.items_succ hsize
        assignment := ih.assignment_succ hsize ht
        ternary := ih.ternary_succ hsize ht
        chain := ih.chain_succ
        chainRest := ih.chainRest_succ hsize ht
        unary := ih.unary_succ hsize ht
        postfixes := ih.postfixes_succ hsize ht
        primary := ih.primary_succ hsize ht
        elements := ih.elements_succ hsize
        slots := ih.slots_succ hsize
        properties := ih.properties_succ hsize
        places := ih.places_succ hsize
        property := ih.property_succ hsize ht }

theorem whole (hsize : byteCount source ≤ Span.limit) (ht : t.InLine) (budget : Nat) :
    Points t source (Parsing.whole budget) := by
  refine (all hsize ht budget).expr.bind fun _ => (points_hasRemaining hsize ht).bind fun b => ?_
  split
  · exact points_trailing hsize
  · exact .pure

end ParsesPointed

/-- For every table that an engine can have, whatever source does not parse gives an error that points at the text
it is about. -/
theorem pointed_of_parse {σ : Type} {b : EngineBuilder σ} {engine : Engine σ} (hb : b.Configured)
    (hbuild : b.build = .ok engine) {source : String} (hsize : source.utf8ByteSize < 2 ^ 30) {e : ParseError}
    (h : Expr.parse source engine.symbols = .error e) : e.Pointed source.toList := by
  have hlimit : byteCount source.toList ≤ Span.limit := by
    rw [byteCount_toList]
    exact hsize.le.trans (by decide)
  have hpoints := ParsesPointed.whole hlimit (hb.inLine hbuild) (Expr.parseBudget source)
  have hend := hpoints [] (.ofSource source engine.symbols) (tracking_ofSource source engine.symbols)
  rw [Expr.parse, StateT.run] at h
  cases hrun : Parsing.whole (Expr.parseBudget source) (.ofSource source engine.symbols) with
  | ok answer =>
    rw [hrun] at h
    cases h
  | error e' =>
    rw [hrun] at h hend
    obtain rfl := Except.error.inj h
    exact hend

/-- The configuration that has the sign `√` and is otherwise built in. -/
def rooted : EngineBuilder Unit := EngineBuilder.start.unary "√" fun v w => (.ok v, w)

/-- The engine of that configuration. -/
def rootedEngine : Engine Unit :=
  ⟨.ofGroups (rooted.groups.map fun (g, symbols) => (g.name, symbols)), rooted.operators⟩

/-- The list of arguments is not closed where a string comes next. The lexer has looked at the string, which holds a
line feed, and the error is located where the string starts. -/
theorem pointed_of_parse_rooted :
    rooted.Configured ∧ rooted.build = .ok rootedEngine ∧ "√f('é',\n 1 '\\\n')".utf8ByteSize < 2 ^ 30 ∧
      Expr.parse "√f('é',\n 1 '\\\n')" rootedEngine.symbols =
        .error ⟨.unexpectedToken ")" "'\\\n'", ⟨14, 18⟩, ⟨2, 4⟩⟩ ∧
      ParseError.Pointed "√f('é',\n 1 '\\\n')".toList
        ⟨.unexpectedToken ")" "'\\\n'", ⟨14, 18⟩, ⟨2, 4⟩⟩ := by
  have hconfigured : rooted.Configured := .unary .start _ _
  have hbuild : rooted.build = .ok rootedEngine := rfl
  have hsize : "√f('é',\n 1 '\\\n')".utf8ByteSize < 2 ^ 30 := by decide
  have hparse : Expr.parse "√f('é',\n 1 '\\\n')" rootedEngine.symbols =
      .error ⟨.unexpectedToken ")" "'\\\n'", ⟨14, 18⟩, ⟨2, 4⟩⟩ := by cbv
  exact ⟨hconfigured, hbuild, hsize, hparse, pointed_of_parse hconfigured hbuild hsize hparse⟩

end LatentExpr
