import LatentExpr.Proofs.Grammar.Calls
import LatentExpr.Proofs.Token.Onward

/-!
Parsing ends. Every call of the parser stands lower than the one that makes it (`Frame.Above`): by a routine that ranks
lower, or behind a character that was taken in between. So no call can be made within one of the same routine, be it
the next round of a loop or a recursion, without a byte having been taken, and the calls nest no deeper than sixteen for
each character (`parse_terminates`). A routine answers or faults whatever its calls come to, so its run is put together
from theirs, by induction on how high it stands.
-/
namespace LatentExpr

open Lexer Lexeme

/-! ### Characters that are left -/

namespace Lexer
variable {t : SymbolTable} {definitions : List (String × List String)} {start rest : List Char} {l l' : Lexer}

theorem Onward.standsAt (h : l.Onward l') (hl : l.At t l.rest) : l'.At t l'.rest :=
  ⟨h.split.trans hl.split, h.symbols.trans hl.symbols, rfl⟩

theorem Onward.length_le (h : l.Onward l') : l'.rest.length ≤ l.rest.length := by
  obtain ⟨text, hrest, -⟩ := h.text
  rw [hrest, List.length_append]
  exact Nat.le_add_left _ _

/-- Where fewer characters are left, a byte was taken. -/
theorem Onward.position_lt (h : l.Onward l') (hlt : l'.rest.length < l.rest.length) : l.position < l'.position := by
  obtain ⟨text, hrest, hposition, -⟩ := h.text
  have hne : text ≠ [] := by
    rintro rfl
    rw [hrest] at hlt
    exact Nat.lt_irrefl _ hlt
  have hpos := byteCount_pos hne
  omega

theorem onward_pastByte {c : Char} (hl : l.At t (c :: rest)) (hc : c ∈ punctuation) : l.Onward l.pastByte where
  symbols := symbols_pastByte l
  source := by
    unfold pastByte
    split <;> rfl
  split := (hl.pastByte hc).split.trans hl.split.symm
  text := by
    refine ⟨[c], ?_, ?_, fun h => absurd hl.split h⟩
    · rw [hl.rest, (hl.pastByte hc).rest, List.singleton_append]
    · rw [← Matcher.length_bytes, bytes_punctuation hc, pastByte, hl.split]
      rfl

theorem onward_consume {c : Char} (hl : l.At t l.rest) (hc : c ∈ punctuation) : l.Onward (consume c l).2 := by
  obtain ⟨start, hstart, hstays | ⟨hnext, htaken⟩⟩ := consumeByte_cases ((String.utf8EncodeChar c).headD 0) l
  · exact hstays ▸ hstart
  · have hat := hstart.standsAt hl
    rw [nextByte?_eq, upcoming, hat.split, List.nil_append, head?_bytes_punctuation hc] at hnext
    obtain ⟨rest, hrest⟩ := List.head?_eq_some_iff.1 hnext
    rw [hrest] at hat
    exact htaken ▸ hstart.trans (onward_pastByte hat hc)

/-- A punctuation character that is taken is gone. -/
theorem length_lt_of_consume {c : Char} (hl : l.At t l.rest) (hc : c ∈ punctuation)
    (h : consume c l = (.ok true, l')) : l'.rest.length < l.rest.length := by
  obtain ⟨start, hs⟩ := hl.skip_of_ok h
  obtain ⟨m, hat, heq⟩ := hl.consume_eq hs hc
  rw [h] at heq
  split at heq
  · rename_i hcond
    obtain ⟨rest, rfl⟩ := List.head?_eq_some_iff.1 hcond.1
    obtain ⟨-, rfl⟩ := Prod.mk.inj heq
    rw [(hat.pastByte hc).rest]
    exact length_le_of_skipText hs
  · cases heq

/-- A symbol is not empty. -/
theorem length_drop_lt {symbols : List String} {s : String}
    (h : (Matcher.ofSymbols symbols).longestIn? start = some s) : (start.drop s.length).length < start.length := by
  obtain ⟨hmem, rest, rfl⟩ := Matcher.of_longestIn? h
  have hne := ((Matcher.mem_symbols_ofSymbols symbols s).1 hmem).2
  have hpos := List.length_pos_iff.2 (mt String.toList_eq_nil_iff.1 hne)
  rw [← String.length_toList, List.drop_left, List.length_append]
  omega

theorem length_lt_of_consumeSymbol? {group : OperatorGroup} {name : Name}
    (hl : l.At (.ofGroups definitions) l.rest) (h : consumeSymbol? group l = (.ok (some name), l')) :
    l'.rest.length < l.rest.length := by
  obtain ⟨start, hs⟩ := hl.skip_of_ok h
  rcases hl.consumeSymbol?_eq hs group with ⟨s, found, m, -, hlong, -, heq, hat⟩ | ⟨m, -, heq, -⟩
  · rw [h] at heq
    obtain ⟨-, rfl⟩ := Prod.mk.inj heq
    rw [hat.rest]
    exact Nat.lt_of_lt_of_le (length_drop_lt hlong) (length_le_of_skipText hs)
  · rw [h] at heq
    cases heq

theorem length_lt_of_consumeText {text : String} (hl : l.At (.ofGroups definitions) l.rest)
    (h : consumeText text l = (.ok true, l')) : l'.rest.length < l.rest.length := by
  obtain ⟨start, hs⟩ := hl.skip_of_ok h
  obtain ⟨m, heq, hat⟩ := hl.consumeText_eq hs text
  rw [h] at heq
  obtain ⟨htaken, rfl⟩ := Prod.mk.inj heq
  have hlong := of_decide_eq_true (Except.ok.inj htaken).symm
  rw [if_pos hlong] at hat
  rw [hat.rest]
  exact Nat.lt_of_lt_of_le (length_drop_lt hlong) (length_le_of_skipText hs)

theorem length_lt_of_nextToken? {token : Token} (hl : l.At (.ofGroups definitions) l.rest)
    (h : nextToken? l = (.ok (some token), l')) : l'.rest.length < l.rest.length := by
  obtain ⟨start, hs⟩ := hl.skip_of_ok h
  rcases hl.nextToken? hs with ⟨m, -, heq, -⟩ | ⟨p, rest, found, m, hlexeme, -, heq, hat⟩ | ⟨e, m, -, -, heq⟩
  · rw [h] at heq
    cases heq
  · rw [h] at heq
    obtain ⟨-, rfl⟩ := Prod.mk.inj heq
    rw [hat.rest]
    exact Nat.lt_of_lt_of_le (length_lt_of_lexeme? hlexeme) (length_le_of_skipText hs)
  · rw [h] at heq
    cases heq

end Lexer

namespace Parsing

/-! ### Steps that go on -/

section
variable {α β : Type} {t : SymbolTable} {definitions : List (String × List String)} {x : Parsing α}
  {f : α → Parsing β} {took : α → Prop} {tookNext : β → Prop}

/-- A step of reading moves the lexer on, and takes a character where its answer says so. It does not fail for its
depth. -/
def Forward (t : SymbolTable) (x : Parsing α) (took : α → Prop) : Prop :=
  ∀ l : Lexer, l.At t l.rest → match x l with
    | .ok (a, l') => l.Onward l' ∧ (took a → l'.rest.length < l.rest.length)
    | .error e => e.fault ≠ .tooDeep

theorem Forward.pure {a : α} (h : ¬ took a) : Forward t (Pure.pure a) took :=
  fun l _ => ⟨.refl l, fun htook => absurd htook h⟩

theorem Forward.fail (h : ∀ l, ∃ e, x l = .error e ∧ e.fault ≠ .tooDeep) : Forward t x took := by
  intro l _
  obtain ⟨e, he, hfault⟩ := h l
  rw [he]
  exact hfault

/-- One step after the other takes what either of them does. -/
theorem Forward.bind (hx : Forward t x took) (hf : ∀ a, Forward t (f a) fun b => tookNext b ∧ ¬ took a) :
    Forward t (x >>= f) tookNext := by
  intro l hl
  have hfirst := hx l hl
  rw [bind_apply]
  cases hanswer : x l with
  | error e =>
    rw [hanswer] at hfirst
    exact hfirst
  | ok answer =>
    obtain ⟨a, m⟩ := answer
    rw [hanswer] at hfirst
    obtain ⟨honward, htook⟩ := hfirst
    have hnext := hf a m (honward.standsAt hl)
    dsimp only
    cases hlast : f a m with
    | error e =>
      rw [hlast] at hnext
      exact hnext
    | ok answer =>
      rw [hlast] at hnext
      obtain ⟨honward', htook'⟩ := hnext
      refine ⟨honward.trans honward', fun hb => ?_⟩
      -- what the first step took need not be taken by the second one
      by_cases ha : took a
      · exact Nat.lt_of_le_of_lt honward'.length_le (htook ha)
      · exact Nat.lt_of_lt_of_le (htook' ⟨hb, ha⟩) honward.length_le

theorem forward_ask {request : Lexing α} (hmoves : ∀ l : Lexer, l.At t l.rest → l.Onward (request l).2)
    (htook : ∀ (l l' : Lexer) a, l.At t l.rest → request l = (.ok a, l') → took a → l'.rest.length < l.rest.length) :
    Forward t (ask request) took := by
  intro l hl
  have honward := hmoves l hl
  cases hanswer : request l with
  | mk answer l' =>
    have hrun : request.run l = (answer, l') := hanswer
    rw [hanswer] at honward
    rw [ask, hrun]
    cases answer with
    | ok a => exact ⟨honward, htook l l' a hl hanswer⟩
    | error e =>
      intro hfault
      cases hfault

/-- A request that is not known to take anything. -/
theorem forward_of_moves {request : Lexing α} (hmoves : Lexing.Moves t request) :
    Forward t (ask request) fun _ => False :=
  forward_ask (fun l hl => hmoves l hl.symbols) fun _ _ _ _ _ => False.elim

theorem forward_get : Forward t (get : Parsing Lexer) fun _ => False := fun l _ => ⟨.refl l, False.elim⟩

theorem forward_consume {c : Char} (hc : c ∈ punctuation) : Forward t (consume c) (· = true) :=
  forward_ask (fun _ hl => onward_consume hl hc) fun _ _ _ hl h hb => length_lt_of_consume hl hc (hb ▸ h)

theorem forward_consumeSymbol? (group : OperatorGroup) :
    Forward (.ofGroups definitions) (ask (Lexer.consumeSymbol? group)) (·.isSome) := by
  refine forward_ask (fun l hl => moves_consumeSymbol? group l hl.symbols) fun _ _ _ hl h hsome => ?_
  obtain ⟨name, rfl⟩ := Option.isSome_iff_exists.1 hsome
  exact length_lt_of_consumeSymbol? hl h

theorem forward_consumeText (text : String) :
    Forward (.ofGroups definitions) (ask (Lexer.consumeText text)) (· = true) :=
  forward_ask (fun l hl => moves_consumeText text l hl.symbols) fun _ _ _ hl h hb =>
    length_lt_of_consumeText hl (hb ▸ h)

theorem forward_nextToken? : Forward (.ofGroups definitions) (ask Lexer.nextToken?) (·.isSome) := by
  refine forward_ask (fun l hl => moves_nextToken? l hl.symbols) fun _ _ _ hl h hsome => ?_
  obtain ⟨token, rfl⟩ := Option.isSome_iff_exists.1 hsome
  exact length_lt_of_nextToken? hl h

theorem forward_operator? (level : Level) : Forward (.ofGroups definitions) (operator? level) (·.isSome) := by
  cases level with
  | logical op =>
    refine (forward_consumeText op.symbol).bind fun b => ?_
    cases b with
    | false => exact .pure fun h => nomatch h.1
    | true => exact .pure fun h => h.2 rfl
  | binary level =>
    refine (forward_consumeSymbol? level.group).bind fun name => .pure fun h => h.2 ?_
    rw [← h.1, Option.isSome_map]

theorem forward_unexpected (expected : String) : Forward t (unexpected expected : Parsing α) took :=
  .fail fun _ => ⟨_, rfl, nofun⟩

theorem forward_unexpectedToken (expected : String) (token : Token) :
    Forward t (unexpectedToken expected token : Parsing α) took := .fail fun _ => ⟨_, rfl, nofun⟩

theorem forward_invalidKey (token : Token) : Forward t (invalidKey token : Parsing α) took :=
  .fail fun _ => ⟨_, rfl, nofun⟩

theorem forward_invalidTarget (target : Expr) (start : Nat) :
    Forward t (invalidTarget target start : Parsing α) took := .fail fun _ => ⟨_, rfl, nofun⟩

theorem forward_trailing : Forward t (trailing : Parsing α) took := .fail fun _ => ⟨_, rfl, nofun⟩

theorem forward_expect {c : Char} (hc : c ∈ punctuation) : Forward t (expect c) fun _ => False := by
  refine (forward_consume hc).bind fun b => ?_
  cases b with
  | false => exact forward_unexpected _
  | true => exact .pure fun h => h.1

theorem forward_memberName : Forward t memberName fun _ => False := by
  refine (forward_of_moves moves_nextIdentifier?).bind fun token => ?_
  cases token with
  | none => exact forward_unexpected _
  | some token =>
    dsimp only
    split
    · exact forward_unexpectedToken _ _
    · exact .pure fun h => h.1

theorem forward_ofToken (token : Token) : Forward t (ofToken token) fun _ => False := by
  unfold ofToken
  split
  · split
    · exact .pure id
    · split
      · exact .pure id
      · exact .pure id
  · exact .pure id
  · exact .pure id
  · exact forward_unexpectedToken _ _

end

/-! ### How high a call stands -/

/-- Where a routine stands among those that can be called before a character is taken. -/
def Routine.rank : Routine → Nat
  | whole | elements => 12
  | expr | elementsRest => 11
  | ternaries | assignment => 10
  | ternary => 9
  | chain looser => 8 - min looser Level.all.length
  | properties => 2
  | unary | propertiesRest => 1
  | chainRest _ | postfixes | primary | property => 0

theorem Routine.rank_le (r : Routine) : r.rank ≤ 12 := by
  cases r <;> simp [rank]
  omega

namespace Frame

/-- The height of a call: a character that is left counts more than any routine. -/
def height (f : Frame) : Nat := 16 * f.lexer.rest.length + f.routine.rank

/-- One call stands above another that is made further on in the source. -/
def Above (f g : Frame) : Prop := f.lexer.Onward g.lexer ∧ g.height < f.height

variable {f g h : Frame}

theorem Above.trans (hfg : f.Above g) (hgh : g.Above h) : f.Above h :=
  ⟨hfg.1.trans hgh.1, Nat.lt_trans hgh.2 hfg.2⟩

/-- A routine is called again only behind a byte that was taken. -/
theorem Above.position_lt (habove : f.Above g) (hroutine : f.routine = g.routine) :
    f.lexer.position < g.lexer.position := by
  obtain ⟨honward, hheight⟩ := habove
  refine honward.position_lt ?_
  rw [height, height, hroutine] at hheight
  omega

theorem length_le_height {path : List Frame} (hpath : (f :: path).Pairwise Above) : path.length ≤ f.height := by
  induction path generalizing f with
  | nil => exact Nat.zero_le _
  | cons g path ih =>
    obtain ⟨habove, hrest⟩ := List.pairwise_cons.1 hpath
    exact Nat.lt_of_le_of_lt (ih hrest) (habove g List.mem_cons_self).2

end Frame

/-! ### Bodies -/

section
variable {α β : Type} {t : SymbolTable} {definitions : List (String × List String)} {height left : Nat}

/-- Run from a lexer, a code makes no call that is as high as said, and no step of it fails for its depth, whatever its
calls answer. -/
def Code.Descends (height : Nat) : Code α → Lexer → Prop
  | done _, _ => True
  | step x next, l => match x l with
    | .ok (b, l') => l.Onward l' ∧ (next b).Descends height l'
    | .error e => e.fault ≠ .tooDeep
  | enter c next, l => (c.frame l).height < height ∧ ∀ b l', l.Onward l' → (next b).Descends height l'

/-- A code descends from wherever at most so many characters are left. -/
def Code.Below (t : SymbolTable) (height left : Nat) (p : Code α) : Prop :=
  ∀ l : Lexer, l.At t l.rest → l.rest.length ≤ left → p.Descends height l

theorem below_done {a : α} : (pure a : Code α).Below t height left := fun _ _ _ => trivial

theorem below_call {c : Call α} (h : 16 * left + c.routine.rank < height) : (Code.call c).Below t height left := by
  intro l _ hleft
  refine ⟨?_, fun _ _ _ => trivial⟩
  show 16 * l.rest.length + c.routine.rank < height
  omega

theorem below_call_bind {c : Call β} {next : β → Code α} (h : 16 * left + c.routine.rank < height)
    (hnext : ∀ b, (next b).Below t height left) : (Code.call c >>= next).Below t height left := by
  intro l hl hleft
  refine ⟨(below_call h l hl hleft).1, fun b l' honward => ?_⟩
  exact hnext b l' (honward.standsAt hl) (Nat.le_trans honward.length_le hleft)

/-- Behind a step that took something fewer characters are left. -/
theorem below_read_bind {x : Parsing β} {next : β → Code α} {took : β → Prop} (hx : Forward t x took)
    (htook : ∀ b, took b → ∀ fewer < left, (next b).Below t height fewer)
    (hnext : ∀ b, ¬ took b → (next b).Below t height left) : (Code.read x >>= next).Below t height left := by
  intro l hl hleft
  have hstep := hx l hl
  have hcode : Code.read x >>= next = .step x next := rfl
  rw [hcode, Code.Descends]
  cases hanswer : x l with
  | error e =>
    rw [hanswer] at hstep
    exact hstep
  | ok answer =>
    obtain ⟨b, l'⟩ := answer
    rw [hanswer] at hstep
    obtain ⟨honward, hlt⟩ := hstep
    refine ⟨honward, ?_⟩
    by_cases hb : took b
    · exact htook b hb l'.rest.length (Nat.lt_of_lt_of_le (hlt hb) hleft) l' (honward.standsAt hl) (Nat.le_refl _)
    · exact hnext b hb l' (honward.standsAt hl) (Nat.le_trans honward.length_le hleft)

theorem below_look_bind {x : Parsing β} {next : β → Code α} (hx : Forward t x fun _ => False)
    (hnext : ∀ b, (next b).Below t height left) : (Code.read x >>= next).Below t height left :=
  below_read_bind hx (fun _ h => h.elim) fun b _ => hnext b

theorem below_read {x : Parsing α} (hx : Forward t x fun _ => False) : (Code.read x).Below t height left :=
  below_look_bind hx fun _ => below_done

theorem below_consume {c : Char} (hc : c ∈ punctuation) {taken passed : Code α}
    (htaken : ∀ fewer < left, taken.Below t height fewer) (hpassed : passed.Below t height left) :
    (Code.read (consume c) >>= fun b => if b = true then taken else passed).Below t height left := by
  refine below_read_bind (forward_consume hc) (fun b hb => ?_) fun b hb => ?_
  · rw [if_pos hb]
    exact htaken
  · rw [if_neg hb]
    exact hpassed

theorem below_token {next : Option β → Code α} {request : Parsing (Option β)}
    (hx : Forward t request (·.isSome)) (htaken : ∀ b, ∀ fewer < left, (next (some b)).Below t height fewer)
    (hnone : (next none).Below t height left) : (Code.read request >>= next).Below t height left := by
  refine below_read_bind hx (fun b hb => ?_) fun b hb => ?_
  · obtain ⟨b, rfl⟩ := Option.isSome_iff_exists.1 hb
    exact htaken b
  · cases b with
    | none => exact hnone
    | some b => exact absurd rfl hb

/-- A routine that ranks lower may be called at once. -/
theorem lower_of_rank {r s : Routine} (h : r.rank < s.rank) : 16 * left + r.rank < 16 * left + s.rank :=
  Nat.add_lt_add_left h _

/-- Behind a character that was taken any routine may be called. -/
theorem lower_of_lt {fewer rank : Nat} (hfewer : fewer < left) (r : Routine) :
    16 * fewer + r.rank < 16 * left + rank := by
  have hle := r.rank_le
  omega

theorem below_expr : Call.expr.body.Below t (16 * left + Routine.expr.rank) left := by
  refine below_call_bind (lower_of_rank (by decide)) fun first => ?_
  refine below_consume (by decide) (fun fewer hfewer => ?_) below_done
  exact below_call_bind (lower_of_lt hfewer _) fun items => below_done

theorem below_ternaries : Call.ternaries.body.Below t (16 * left + Routine.ternaries.rank) left := by
  refine below_call_bind (lower_of_rank (by decide)) fun item => ?_
  refine below_consume (by decide) (fun fewer hfewer => ?_) below_done
  exact below_call_bind (lower_of_lt hfewer _) fun items => below_done

theorem below_assignment :
    Call.assignment.body.Below (.ofGroups definitions) (16 * left + Routine.assignment.rank) left := by
  refine below_look_bind (forward_of_moves moves_advance) fun _ => below_look_bind forward_get fun l => ?_
  refine below_call_bind (lower_of_rank (by decide)) fun target => ?_
  refine below_token (forward_consumeSymbol? _) (fun name fewer hfewer => ?_) below_done
  dsimp only
  split
  · exact below_call_bind (lower_of_lt hfewer _) fun value => below_done
  · exact below_read (forward_invalidTarget _ _)

theorem below_ternary : Call.ternary.body.Below t (16 * left + Routine.ternary.rank) left := by
  refine below_call_bind (lower_of_rank (by decide)) fun test => ?_
  refine below_consume (by decide) (fun fewer hfewer => ?_) below_done
  refine below_call_bind (lower_of_lt hfewer _) fun consequent => ?_
  refine below_look_bind (forward_expect (by decide)) fun _ => ?_
  exact below_call_bind (lower_of_lt hfewer _) fun alternate => below_done

theorem below_chain (looser : Nat) :
    (Call.chain looser).body.Below t (16 * left + (Routine.chain looser).rank) left := by
  rw [Call.body]
  cases h : Level.all[looser]? with
  | none =>
    refine below_call (lower_of_rank ?_)
    show 1 < 8 - min looser 6
    omega
  | some level =>
    obtain ⟨hlooser, -⟩ := List.getElem?_eq_some_iff.1 h
    have hlt : looser < 6 := hlooser
    refine below_call_bind (lower_of_rank ?_) fun operand => below_call (lower_of_rank ?_)
    · show 8 - min (looser + 1) 6 < 8 - min looser 6
      omega
    · show 0 < 8 - min looser 6
      omega

theorem below_chainRest (level : Level) (looser : Nat) (e : Expr) :
    (Call.chainRest level looser e).body.Below (.ofGroups definitions)
      (16 * left + (Routine.chainRest looser).rank) left := by
  refine below_token (forward_operator? level) (fun join fewer hfewer => ?_) below_done
  exact below_call_bind (lower_of_lt hfewer _) fun right => below_call (lower_of_lt hfewer _)

theorem below_unary : Call.unary.body.Below (.ofGroups definitions) (16 * left + Routine.unary.rank) left := by
  refine below_token (forward_consumeSymbol? _) (fun name fewer hfewer => ?_) ?_
  · exact below_call_bind (lower_of_lt hfewer _) fun operand => below_done
  · exact below_call_bind (lower_of_rank (by decide)) fun e => below_call (lower_of_rank Nat.zero_lt_one)

theorem below_postfixes (e : Expr) :
    (Call.postfixes e).body.Below t (16 * left + Routine.postfixes.rank) left := by
  refine below_consume (by decide) (fun fewer hfewer => ?_) ?_
  · refine below_call_bind (lower_of_lt hfewer _) fun args => ?_
    exact below_look_bind (forward_expect (by decide)) fun _ => below_call (lower_of_lt hfewer _)
  refine below_consume (by decide) (fun fewer hfewer => ?_) ?_
  · refine below_call_bind (lower_of_lt hfewer _) fun key => ?_
    exact below_look_bind (forward_expect (by decide)) fun _ => below_call (lower_of_lt hfewer _)
  refine below_consume (by decide) (fun fewer hfewer => ?_) below_done
  exact below_look_bind forward_memberName fun name => below_call (lower_of_lt hfewer _)

theorem below_primary :
    Call.primary.body.Below (.ofGroups definitions) (16 * left + Routine.primary.rank) left := by
  refine below_consume (by decide) (fun fewer hfewer => ?_) ?_
  · refine below_call_bind (lower_of_lt hfewer _) fun e => ?_
    exact below_look_bind (forward_expect (by decide)) fun _ => below_done
  refine below_consume (by decide) (fun fewer hfewer => ?_) ?_
  · refine below_call_bind (lower_of_lt hfewer _) fun es => ?_
    exact below_look_bind (forward_expect (by decide)) fun _ => below_done
  refine below_consume (by decide) (fun fewer hfewer => ?_) ?_
  · refine below_call_bind (lower_of_lt hfewer _) fun ps => ?_
    exact below_look_bind (forward_expect (by decide)) fun _ => below_done
  exact below_token forward_nextToken? (fun token fewer _ => below_read (forward_ofToken token))
    (below_read (forward_unexpected _))

theorem below_elements (close : Char) :
    (Call.elements close).body.Below t (16 * left + Routine.elements.rank) left := by
  refine below_look_bind (forward_of_moves moves_peek?) fun next => ?_
  cases next with
  | none => exact below_done
  | some c =>
    dsimp only
    split
    · exact below_done
    · exact below_call (lower_of_rank (Nat.lt_succ_self 11))

theorem below_elementsRest (close : Char) :
    (Call.elementsRest close).body.Below t (16 * left + Routine.elementsRest.rank) left := by
  have hrest (element : Expr) : (do
      if ← Code.read (consume ',') then return element :: (← Code.call (Call.elementsRest close))
      else return [element] : Code (List Expr)).Below t (16 * left + Routine.elementsRest.rank) left := by
    refine below_consume (by decide) (fun fewer hfewer => ?_) below_done
    exact below_call_bind (lower_of_lt hfewer _) fun elements => below_done
  -- a slot with nothing in it calls nothing; its round is followed by another one only behind a comma that was taken
  refine below_look_bind (forward_of_moves moves_peek?) fun next => ?_
  dsimp only
  split
  · exact hrest _
  · exact below_call_bind (lower_of_rank (by decide)) fun element => hrest element

theorem below_properties : Call.properties.body.Below t (16 * left + Routine.properties.rank) left := by
  refine below_look_bind (forward_of_moves moves_peek?) fun next => ?_
  cases next with
  | none => exact below_done
  | some c =>
    dsimp only
    split
    · exact below_done
    · exact below_call (lower_of_rank (by decide))

theorem below_propertiesRest :
    Call.propertiesRest.body.Below t (16 * left + Routine.propertiesRest.rank) left := by
  have hrest (slot : List Property) : (do
      if ← Code.read (consume ',') then return slot ++ (← Code.call Call.propertiesRest)
      else return slot : Code (List Property)).Below t (16 * left + Routine.propertiesRest.rank) left := by
    refine below_consume (by decide) (fun fewer hfewer => ?_) below_done
    exact below_call_bind (lower_of_lt hfewer _) fun ps => below_done
  refine below_look_bind (forward_of_moves moves_peek?) fun next => ?_
  dsimp only
  split
  · exact hrest []
  · exact below_call_bind (lower_of_rank (by decide)) fun p => hrest [p]

theorem below_property :
    Call.property.body.Below (.ofGroups definitions) (16 * left + Routine.property.rank) left := by
  refine below_consume (by decide) (fun fewer hfewer => ?_) ?_
  · refine below_call_bind (lower_of_lt hfewer _) fun key => ?_
    refine below_look_bind (forward_expect (by decide)) fun _ => ?_
    refine below_look_bind (forward_expect (by decide)) fun _ => ?_
    exact below_call_bind (lower_of_lt hfewer _) fun value => below_done
  refine below_token forward_nextToken? (fun token fewer hfewer => ?_) (below_read (forward_unexpected _))
  have hvalue (f : Expr → Property) : (do
      Code.read (expect ':')
      return f (← Code.call .assignment) : Code Property).Below (.ofGroups definitions)
        (16 * left + Routine.property.rank) fewer :=
    below_look_bind (forward_expect (by decide)) fun _ => below_call_bind (lower_of_lt hfewer _) fun value => below_done
  dsimp only
  cases token.kind with
  | number => exact hvalue _
  | string => exact hvalue _
  | identifier =>
    dsimp only
    split
    · exact hvalue _
    · refine below_consume (by decide) (fun fewest hfewest => ?_) below_done
      exact below_call_bind (lower_of_lt (Nat.lt_trans hfewest hfewer) _) fun value => below_done
  | symbol => exact below_read (forward_invalidKey token)

theorem below_whole : Code.whole.Below t (16 * left + Routine.whole.rank) left := by
  refine below_call_bind (lower_of_rank (by decide)) fun e => ?_
  refine below_look_bind (forward_of_moves moves_hasRemaining) fun more => ?_
  split
  · exact below_read forward_trailing
  · exact below_done

/-- Whatever a routine calls stands lower than its own call. -/
theorem below_body (c : Call α) : c.body.Below (.ofGroups definitions) (16 * left + c.routine.rank) left := by
  cases c with
  | expr => exact below_expr
  | ternaries => exact below_ternaries
  | assignment => exact below_assignment
  | ternary => exact below_ternary
  | chain looser => exact below_chain looser
  | chainRest level looser e => exact below_chainRest level looser e
  | unary => exact below_unary
  | postfixes e => exact below_postfixes e
  | primary => exact below_primary
  | elements close => exact below_elements close
  | elementsRest close => exact below_elementsRest close
  | properties => exact below_properties
  | propertiesRest => exact below_propertiesRest
  | property => exact below_property

end

/-! ### Runs -/

section
variable {α : Type} {definitions : List (String × List String)} {l : Lexer}

/-- The end of a run: the lexer has moved on, or there is an error that is not about depth. -/
def EndsBehind (l : Lexer) : Except ParseError (α × Lexer) → Prop
  | .ok (_, l') => l.Onward l'
  | .error e => e.fault ≠ .tooDeep

theorem EndsBehind.of_onward {m : Lexer} {answer : Except ParseError (α × Lexer)} (h : l.Onward m)
    (hm : EndsBehind m answer) : EndsBehind l answer := by
  cases answer with
  | ok answer => exact h.trans hm
  | error e => exact hm

/-- A code runs to its end below a call: every path of calls goes down from that call. -/
def Code.Settles (f : Frame) (p : Code α) (l : Lexer) : Prop :=
  ∃ paths answer, p.Runs l paths answer ∧ (∀ path ∈ paths, (f :: path).Pairwise Frame.Above) ∧ EndsBehind l answer

/-- A path below a call is one below any call that stands above it. -/
theorem pairwise_cons_of_above {f g : Frame} {inner : List (List Frame)} (habove : f.Above g)
    (hinner : ∀ path ∈ inner, (g :: path).Pairwise Frame.Above) :
    ∀ path ∈ ([] :: inner).map (g :: ·), (f :: path).Pairwise Frame.Above := by
  intro path hpath
  obtain ⟨below, hbelow, rfl⟩ := List.mem_map.1 hpath
  have hpairwise : (g :: below).Pairwise Frame.Above := by
    rcases List.mem_cons.1 hbelow with rfl | hbelow
    · exact List.pairwise_singleton _ g
    · exact hinner below hbelow
  refine List.pairwise_cons.2 ⟨List.forall_mem_cons.2 ⟨habove, fun h hmem => ?_⟩, hpairwise⟩
  exact habove.trans ((List.pairwise_cons.1 hpairwise).1 h hmem)

/-- A code that makes lower calls only settles if they do. -/
theorem Code.Descends.settles {f : Frame} (hf : f.lexer.At (.ofGroups definitions) f.lexer.rest)
    (hcalls : ∀ {γ : Type} (c : Call γ) (m : Lexer), m.At (.ofGroups definitions) m.rest →
      (c.frame m).height < f.height → c.body.Settles (c.frame m) m)
    {p : Code α} (hp : p.Descends f.height l) (hl : f.lexer.Onward l) : p.Settles f l := by
  induction p generalizing l with
  | done a => exact ⟨[], _, .done a l, nofun, .refl l⟩
  | step x next ih =>
    rw [Code.Descends] at hp
    cases hanswer : x l with
    | error e =>
      rw [hanswer] at hp
      exact ⟨[], _, .fails hanswer, nofun, hp⟩
    | ok answer =>
      obtain ⟨b, m⟩ := answer
      rw [hanswer] at hp
      obtain ⟨honward, hnext⟩ := hp
      obtain ⟨paths, answer, hruns, hpaths, hend⟩ := ih b hnext (hl.trans honward)
      exact ⟨paths, answer, .reads hanswer hruns, hpaths, hend.of_onward honward⟩
  | enter c next ih =>
    obtain ⟨hlower, hnext⟩ := hp
    obtain ⟨inner, answer, hcall, hinner, hend⟩ := hcalls c l (hl.standsAt hf) hlower
    have hbelow := pairwise_cons_of_above ⟨hl, hlower⟩ hinner
    cases answer with
    | error e => exact ⟨_, _, .callFails hcall, hbelow, hend⟩
    | ok answer =>
      obtain ⟨b, m⟩ := answer
      have honward : l.Onward m := hend
      obtain ⟨paths, answer, hruns, hpaths, hend⟩ := ih b (hnext b m honward) (hl.trans honward)
      exact ⟨_, answer, .calls hcall hruns, List.forall_mem_append.2 ⟨hbelow, hpaths⟩, hend.of_onward honward⟩

/-- Every call of the parser runs to an end, by induction on how high it stands. -/
theorem Call.settles (c : Call α) (hl : l.At (.ofGroups definitions) l.rest) : c.body.Settles (c.frame l) l := by
  induction hheight : (c.frame l).height using Nat.strongRecOn generalizing α c l with
  | ind height ih =>
    subst hheight
    -- the calls of the body are lower, so they settle; the body settles if they do
    refine Code.Descends.settles hl (fun c m hm hlt => ih _ hlt c hm rfl) ?_ (.refl l)
    exact below_body c l hl (Nat.le_refl _)

theorem Code.settles_whole (hl : l.At (.ofGroups definitions) l.rest) : Code.whole.Settles ⟨.whole, l⟩ l :=
  Code.Descends.settles hl (fun c _ hm _ => c.settles hm) (below_whole l hl (Nat.le_refl _)) (.refl l)

end

end Parsing

open Parsing

/-- Parsing ends on every source, with any table of symbols. Without any budget of calls there is exactly one run, it
ends with the answer or error that the source is given, and no source is refused for its depth. Along every path of
nested calls, where the rounds of a loop count as calls that nest, a routine is called again only behind a byte that
was taken in between, and no path is longer than sixteen calls for each character and for the end of the source. -/
theorem Expr.parse_terminates (source : String) (definitions : List (String × List String)) :
    ∃ paths answer, Code.whole.Runs (.ofSource source (.ofGroups definitions)) paths answer ∧
      (∀ paths' answer', Code.whole.Runs (.ofSource source (.ofGroups definitions)) paths' answer' →
        paths' = paths ∧ answer' = answer) ∧
      Expr.parse source (.ofGroups definitions) = answer.map Prod.fst ∧
      (∀ e, Expr.parse source (.ofGroups definitions) = .error e → e.fault ≠ .tooDeep) ∧
      ∀ path ∈ paths, path.length ≤ 16 * (source.length + 1) ∧
        path.Pairwise fun outer inner =>
          outer.routine = inner.routine → outer.lexer.position < inner.lexer.position := by
  have hstart := At.ofSource source (.ofGroups definitions)
  obtain ⟨paths, answer, hruns, hpaths, hend⟩ := Code.settles_whole hstart
  have hlength : ∀ path ∈ paths, path.length ≤ 16 * (source.length + 1) := by
    intro path hpath
    have hheight : path.length ≤ 16 * source.toList.length + 12 := Frame.length_le_height (hpaths path hpath)
    rw [String.length_toList] at hheight
    omega
  have hparse : Expr.parse source (.ofGroups definitions) = answer.map Prod.fst := by
    have hrun := hruns.run hlength
    rw [← whole_eq_run] at hrun
    exact congrArg (Except.map Prod.fst) hrun
  refine ⟨paths, answer, hruns, fun paths' answer' h' => h'.unique hruns, hparse, ?_, fun path hpath => ⟨?_, ?_⟩⟩
  · intro e he
    rw [hparse] at he
    cases answer with
    | ok answer => cases he
    | error e' => exact Except.error.inj he ▸ hend
  · exact hlength path hpath
  · exact (List.pairwise_cons.1 (hpaths path hpath)).2.imp fun habove => habove.position_lt

/-- The comma that a longer symbol begins with is not taken, so the list ends behind its second slot, which has taken
nothing. -/
theorem Expr.parse_terminates_longer_comma :
    ∃ paths answer, Code.whole.Runs (.ofSource "[,,=" (.ofGroups [("Additive", [",="])])) paths answer ∧
      answer.map Prod.fst = .error ⟨.unexpectedToken "]" ",=", ⟨2, 4⟩, ⟨1, 3⟩⟩ ∧
      ∀ path ∈ paths, path.length ≤ 80 := by
  obtain ⟨paths, answer, hruns, -, hanswer, -, hpaths⟩ := Expr.parse_terminates "[,,=" [("Additive", [",="])]
  have hparse : Expr.parse "[,,=" (.ofGroups [("Additive", [",="])]) =
      .error ⟨.unexpectedToken "]" ",=", ⟨2, 4⟩, ⟨1, 3⟩⟩ := by cbv
  exact ⟨paths, answer, hruns, hanswer.symm.trans hparse, fun path hpath => (hpaths path hpath).1⟩

end LatentExpr
