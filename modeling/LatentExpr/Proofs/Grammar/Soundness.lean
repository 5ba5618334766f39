import LatentExpr.Proofs.Grammar.Requests

/-!
The parser returns only what the grammar derives. What a function of the parser has read is derived from
its phrase, whatever tokens follow (`Yields`). The tokens are not known before the end of the source has
been reached, so a derivation is put together from its last token to its first.
-/
namespace LatentExpr

open Lexeme Lexer

variable {l l' l'' : Lexer} {ph : Phrase} {o : Bool} {budget : Nat} {e left : Expr} {es : List Expr}
  {ps : List Property} {p : Property} {level : Level} {levels tighter : List Level} {close : Char}

/-- What was read between two lexers is derived from a phrase. A phrase that is hungry has left no comma. -/
structure Yields (ph : Phrase) (o : Bool) (l l' : Lexer) : Prop where
  standing : l'.Standing
  derives : ∀ rest, l'.Ahead rest → ∃ T, Derives true ph o T ∧ l.Ahead (T ++ rest)
  fed : o = true → ∀ rest, l'.Ahead rest → rest.head? ≠ some (.punct ',')

/-- Every function of the parser yields its phrase, with a budget. -/
structure Sound (budget : Nat) : Prop where
  expr : ∀ {l l' e}, l.Standing → Parsing.expr budget l = .ok (e, l') → Yields (.expr e) true l l'
  items : ∀ {l l' es}, l.Standing → Parsing.ternaries budget l = .ok (es, l') →
    Yields (.items es) true l l'
  assignment : ∀ {l l' e}, l.Standing → Parsing.assignment budget l = .ok (e, l') →
    ∃ o, Yields (.assignment e) o l l'
  ternary : ∀ {l l' e}, l.Standing → Parsing.ternary budget l = .ok (e, l') →
    ∃ o, Yields (.ternary e) o l l'
  chain : ∀ {l l' levels e}, l.Standing → Parsing.chain budget levels l = .ok (e, l') →
    Yields (.chain levels e) false l l'
  chainRest : ∀ {l l' level tighter left e}, l.Standing →
    Parsing.chainRest budget level tighter left l = .ok (e, l') →
      Yields (.chainRest level tighter left e) false l l'
  unary : ∀ {l l' e}, l.Standing → Parsing.unary budget l = .ok (e, l') →
    Yields (.unary e) false l l'
  postfixes : ∀ {l l' left e}, l.Standing → Parsing.postfixes budget left l = .ok (e, l') →
    Yields (.postfixes left e) false l l'
  primary : ∀ {l l' e}, l.Standing → Parsing.primary budget l = .ok (e, l') →
    Yields (.primary e) false l l'
  elements : ∀ {l l' close es}, l.Standing → Parsing.elements budget close l = .ok (es, l') →
    Yields (.elements es) false l l'
  /-- Of no token only the list before its closing character is made. -/
  slots : ∀ {l l' close es}, l.Standing → Parsing.elementsRest budget close l = .ok (es, l') →
    l'.Standing ∧ ∀ rest, l'.Ahead rest → ∃ T, Derives true (.slots es) false T ∧ l.Ahead (T ++ rest) ∧
      (T = [] → ∃ l₁, Parsing.peek? l = .ok (some close, l₁))
  properties : ∀ {l l' ps}, l.Standing → Parsing.properties budget l = .ok (ps, l') →
    Yields (.properties ps) false l l'
  places : ∀ {l l' ps}, l.Standing → Parsing.propertiesRest budget l = .ok (ps, l') →
    Yields (.places ps) false l l'
  property : ∀ {l l' p}, l.Standing → Parsing.property budget l = .ok (p, l') →
    ∃ o, Yields (.property p) o l l'

/-- A token is taken for the expression that it is. -/
theorem Parsing.ofToken_eq_ok {token : Token} {e : Expr} {l l' : Lexer} :
    Parsing.ofToken token l = .ok (e, l') ↔ token.piece.expr? = some e ∧ l' = l := by
  have hpure (a : Expr) : (pure a : Parsing Expr) l = .ok (e, l') ↔ some a = some e ∧ l' = l := by
    constructor
    · intro h
      obtain ⟨rfl, rfl⟩ := Prod.mk.inj (Except.ok.inj h)
      exact ⟨rfl, rfl⟩
    · rintro ⟨⟨⟩, rfl⟩
      rfl
  unfold Parsing.ofToken Piece.expr? Token.piece
  cases token.kind with
  | identifier =>
    simp only
    by_cases hthis : token.text = "this"
    · rw [if_pos hthis, if_pos hthis]
      exact hpure _
    · rw [if_neg hthis, if_neg hthis]
      cases Literal.ofKeyword? token.text with
      | some value => exact hpure _
      | none => exact hpure _
  | number => exact hpure _
  | string => exact hpure _
  | symbol =>
    constructor
    · intro h
      cases h
    · rintro ⟨h, -⟩
      cases h

namespace Sound

theorem comma_mem : ',' ∈ punctuation := by decide

theorem comma_ne_point : ',' ≠ '.' := by decide

/-- What has left a comma was not hungry. -/
theorem eq_false_of_comma {rest : List Piece} (h : Yields ph o l l')
    (hrest : l'.Ahead (.punct ',' :: rest)) : o = false := by
  cases o with
  | false => rfl
  | true => exact absurd rfl (h.fed rfl _ hrest)

/-! ### Expressions, items and assignments -/

/-- What follows an item: the end of what is read, or a comma and more items. -/
theorem items_of_item {α : Type} {phrase : α → Phrase} {alone a : α} {more : List Expr → α} (ih : Sound budget)
    (hT : Yields ph o l l'')
    (hrun : (do
      if ← Parsing.consume ',' then return more (← Parsing.ternaries budget)
      else return alone) l'' = .ok (a, l'))
    (halone : ∀ {T}, Derives true ph o T → Derives true (phrase alone) true T)
    (hmore : ∀ {es T U}, Derives true ph o T → o = false → Derives true (.items es) true U →
      Derives true (phrase (more es)) true (T ++ .punct ',' :: U)) : Yields (phrase a) true l l' := by
  obtain ⟨b, l₁, hcomma, hrun⟩ := Parsing.bind_eq_ok.1 hrun
  cases b with
  | false =>
    obtain ⟨rfl, rfl⟩ := Prod.mk.inj (Except.ok.inj hrun)
    obtain ⟨hnot, hother⟩ := hT.standing.consume_other comma_mem hcomma
    refine ⟨hnot.standing, fun rest hrest => ?_, fun _ => hother⟩
    obtain ⟨T, hderives, hahead⟩ := hT.derives rest (hnot.ahead rest hrest)
    exact ⟨T, halone hderives, hahead⟩
  | true =>
    have htakes := hT.standing.consume comma_mem comma_ne_point hcomma
    obtain ⟨es, l₂, hes, hrun⟩ := Parsing.bind_eq_ok.1 hrun
    obtain ⟨rfl, rfl⟩ := Prod.mk.inj (Except.ok.inj hrun)
    have hU := ih.items htakes.standing hes
    refine ⟨hU.standing, fun rest hrest => ?_, hU.fed⟩
    obtain ⟨U, hderivesU, hahead⟩ := hU.derives rest hrest
    have hahead := htakes.ahead _ hahead
    have ho := eq_false_of_comma hT hahead
    obtain ⟨T, hderives, hahead⟩ := hT.derives _ hahead
    refine ⟨T ++ .punct ',' :: U, hmore hderives ho hderivesU, ?_⟩
    rwa [List.append_assoc]

theorem expr_succ (ih : Sound budget) (h : l.Standing)
    (hrun : Parsing.expr (budget + 1) l = .ok (e, l')) : Yields (.expr e) true l l' := by
  rw [Parsing.expr] at hrun
  obtain ⟨first, l₁, hfirst, hrun⟩ := Parsing.bind_eq_ok.1 hrun
  obtain ⟨o, hT⟩ := ih.assignment h hfirst
  exact items_of_item ih hT hrun .single fun hderives ho hderivesU => .sequence hderives (fun _ => ho) hderivesU

theorem items_succ (ih : Sound budget) (h : l.Standing)
    (hrun : Parsing.ternaries (budget + 1) l = .ok (es, l')) : Yields (.items es) true l l' := by
  rw [Parsing.ternaries] at hrun
  obtain ⟨first, l₁, hfirst, hrun⟩ := Parsing.bind_eq_ok.1 hrun
  obtain ⟨o, hT⟩ := ih.ternary h hfirst
  exact items_of_item ih hT hrun .lastItem fun hderives ho hderivesU => .moreItems hderives (fun _ => ho) hderivesU

theorem assignment_succ (ih : Sound budget) (h : l.Standing)
    (hrun : Parsing.assignment (budget + 1) l = .ok (e, l')) :
    ∃ o, Yields (.assignment e) o l l' := by
  rw [Parsing.assignment] at hrun
  obtain ⟨⟨⟩, l₀, hadvance, hrun⟩ := Parsing.bind_eq_ok.1 hrun
  have hskip := h.advance hadvance
  obtain ⟨here, l₁, hget, hrun⟩ := Parsing.bind_eq_ok.1 hrun
  obtain ⟨rfl, rfl⟩ := Prod.mk.inj (Except.ok.inj hget)
  obtain ⟨target, l₂, htarget, hrun⟩ := Parsing.bind_eq_ok.1 hrun
  obtain ⟨o, hT⟩ := ih.ternary hskip.standing htarget
  obtain ⟨name, l₃, hsymbol, hrun⟩ := Parsing.bind_eq_ok.1 hrun
  cases name with
  | none =>
    obtain ⟨rfl, rfl⟩ := Prod.mk.inj (Except.ok.inj hrun)
    have hnot := hT.standing.consumeSymbol?_other hsymbol
    refine ⟨o, hnot.standing, fun rest hrest => ?_, fun ho rest hrest => ?_⟩
    · obtain ⟨T, hderives, hahead⟩ := hT.derives rest (hnot.ahead rest hrest)
      exact ⟨T, .unassigned hderives, hskip.ahead _ hahead⟩
    · exact hT.fed ho rest (hnot.ahead rest hrest)
  | some name =>
    have hg : OperatorGroup.assignment ≠ .punctuation := nofun
    obtain ⟨hin, htakes⟩ := hT.standing.consumeSymbol? hg hsymbol
    have hname : name.text = "=" := List.mem_singleton.1 hin
    rw [hname] at htakes
    by_cases hw : target.isWritable = true
    · simp only [hw, if_true] at hrun
      obtain ⟨value, l₄, hvalue, hrun⟩ := Parsing.bind_eq_ok.1 hrun
      obtain ⟨rfl, rfl⟩ := Prod.mk.inj (Except.ok.inj hrun)
      obtain ⟨o', hU⟩ := ih.assignment htakes.standing hvalue
      refine ⟨o', hU.standing, fun rest hrest => ?_, hU.fed⟩
      obtain ⟨U, hderivesU, hahead⟩ := hU.derives rest hrest
      obtain ⟨T, hderives, hahead⟩ := hT.derives _ (htakes.ahead _ hahead)
      refine ⟨T ++ .symbol "=" :: U, .assigned hderives hw hderivesU, ?_⟩
      rw [List.append_assoc]
      exact hskip.ahead _ hahead
    · simp only [hw, if_false, Bool.false_eq_true] at hrun
      cases hrun

theorem ternary_succ (ih : Sound budget) (h : l.Standing)
    (hrun : Parsing.ternary (budget + 1) l = .ok (e, l')) : ∃ o, Yields (.ternary e) o l l' := by
  rw [Parsing.ternary] at hrun
  obtain ⟨test, l₁, htest, hrun⟩ := Parsing.bind_eq_ok.1 hrun
  have hT := ih.chain h htest
  obtain ⟨b, l₂, hmark, hrun⟩ := Parsing.bind_eq_ok.1 hrun
  cases b with
  | false =>
    obtain ⟨rfl, rfl⟩ := Prod.mk.inj (Except.ok.inj hrun)
    obtain ⟨hnot, -⟩ := hT.standing.consume_other (by decide) hmark
    refine ⟨false, hnot.standing, fun rest hrest => ?_, nofun⟩
    obtain ⟨T, hderives, hahead⟩ := hT.derives rest (hnot.ahead rest hrest)
    exact ⟨T, .untested hderives, hahead⟩
  | true =>
    have hquestion := hT.standing.consume (by decide) (by decide) hmark
    obtain ⟨consequent, l₃, hconsequent, hrun⟩ := Parsing.bind_eq_ok.1 hrun
    have hU := ih.expr hquestion.standing hconsequent
    obtain ⟨⟨⟩, l₄, hexpect, hrun⟩ := Parsing.bind_eq_ok.1 hrun
    have hcolon := hU.standing.expect (by decide) (by decide) hexpect
    obtain ⟨alternate, l₅, halternate, hrun⟩ := Parsing.bind_eq_ok.1 hrun
    obtain ⟨rfl, rfl⟩ := Prod.mk.inj (Except.ok.inj hrun)
    have hV := ih.expr hcolon.standing halternate
    refine ⟨true, hV.standing, fun rest hrest => ?_, hV.fed⟩
    obtain ⟨V, hderivesV, hahead⟩ := hV.derives rest hrest
    obtain ⟨U, hderivesU, hahead⟩ := hU.derives _ (hcolon.ahead _ hahead)
    obtain ⟨T, hderives, hahead⟩ := hT.derives _ (hquestion.ahead _ hahead)
    refine ⟨_, .tested hderives hderivesU hderivesV, ?_⟩
    simpa using hahead

/-! ### Operators -/

theorem chain_succ (ih : Sound budget) (h : l.Standing)
    (hrun : Parsing.chain (budget + 1) levels l = .ok (e, l')) :
    Yields (.chain levels e) false l l' := by
  cases levels with
  | nil =>
    rw [Parsing.chain] at hrun
    have hT := ih.unary h hrun
    refine ⟨hT.standing, fun rest hrest => ?_, nofun⟩
    obtain ⟨T, hderives, hahead⟩ := hT.derives rest hrest
    exact ⟨T, .operand hderives, hahead⟩
  | cons level tighter =>
    rw [Parsing.chain] at hrun
    obtain ⟨left, l₁, hleft, hrun⟩ := Parsing.bind_eq_ok.1 hrun
    have hT := ih.chain h hleft
    have hU := ih.chainRest hT.standing hrun
    refine ⟨hU.standing, fun rest hrest => ?_, nofun⟩
    obtain ⟨U, hderivesU, hahead⟩ := hU.derives rest hrest
    obtain ⟨T, hderives, hahead⟩ := hT.derives _ hahead
    refine ⟨T ++ U, .level hderives hderivesU, ?_⟩
    rwa [List.append_assoc]

theorem chainRest_succ (ih : Sound budget) (h : l.Standing)
    (hrun : Parsing.chainRest (budget + 1) level tighter left l = .ok (e, l')) :
    Yields (.chainRest level tighter left e) false l l' := by
  rw [Parsing.chainRest] at hrun
  obtain ⟨join, l₁, hjoin, hrun⟩ := Parsing.bind_eq_ok.1 hrun
  cases join with
  | none =>
    obtain ⟨rfl, rfl⟩ := Prod.mk.inj (Except.ok.inj hrun)
    have hnot := h.operator?_other hjoin
    exact ⟨hnot.standing, fun rest hrest => ⟨[], .restDone, hnot.ahead rest hrest⟩, nofun⟩
  | some join =>
    obtain ⟨symbol, hsymbol, rfl, htakes⟩ := h.operator? hjoin
    obtain ⟨right, l₂, hright, hrun⟩ := Parsing.bind_eq_ok.1 hrun
    have hT := ih.chain htakes.standing hright
    have hU := ih.chainRest hT.standing hrun
    refine ⟨hU.standing, fun rest hrest => ?_, nofun⟩
    obtain ⟨U, hderivesU, hahead⟩ := hU.derives rest hrest
    obtain ⟨T, hderives, hahead⟩ := hT.derives _ hahead
    refine ⟨_, .restMore hsymbol hderives hderivesU, ?_⟩
    simpa using htakes.ahead _ hahead

theorem unary_succ (ih : Sound budget) (h : l.Standing)
    (hrun : Parsing.unary (budget + 1) l = .ok (e, l')) : Yields (.unary e) false l l' := by
  rw [Parsing.unary] at hrun
  obtain ⟨name, l₁, hsymbol, hrun⟩ := Parsing.bind_eq_ok.1 hrun
  cases name with
  | some name =>
    have hg : OperatorGroup.unary ≠ .punctuation := nofun
    obtain ⟨hin, htakes⟩ := h.consumeSymbol? hg hsymbol
    obtain ⟨operand, l₂, hoperand, hrun⟩ := Parsing.bind_eq_ok.1 hrun
    obtain ⟨rfl, rfl⟩ := Prod.mk.inj (Except.ok.inj hrun)
    have hT := ih.unary htakes.standing hoperand
    refine ⟨hT.standing, fun rest hrest => ?_, nofun⟩
    obtain ⟨T, hderives, hahead⟩ := hT.derives rest hrest
    exact ⟨_, .signed hin hderives, htakes.ahead _ hahead⟩
  | none =>
    have hnot := h.consumeSymbol?_other hsymbol
    obtain ⟨head, l₂, hhead, hrun⟩ := Parsing.bind_eq_ok.1 hrun
    have hT := ih.primary hnot.standing hhead
    have hU := ih.postfixes hT.standing hrun
    refine ⟨hU.standing, fun rest hrest => ?_, nofun⟩
    obtain ⟨U, hderivesU, hahead⟩ := hU.derives rest hrest
    obtain ⟨T, hderives, hahead⟩ := hT.derives _ hahead
    refine ⟨T ++ U, .unsigned hderives hderivesU, ?_⟩
    rw [List.append_assoc]
    exact hnot.ahead _ hahead

/-! ### Postfixes and primaries -/

theorem postfixes_succ (ih : Sound budget) (h : l.Standing)
    (hrun : Parsing.postfixes (budget + 1) left l = .ok (e, l')) :
    Yields (.postfixes left e) false l l' := by
  rw [Parsing.postfixes] at hrun
  obtain ⟨call, l₁, hcall, hrun⟩ := Parsing.bind_eq_ok.1 hrun
  cases call with
  | true =>
    have hopen := h.consume (by decide) (by decide) hcall
    obtain ⟨args, l₂, hargs, hrun⟩ := Parsing.bind_eq_ok.1 hrun
    have hT := ih.elements hopen.standing hargs
    obtain ⟨⟨⟩, l₃, hexpect, hrun⟩ := Parsing.bind_eq_ok.1 hrun
    have hclose := hT.standing.expect (by decide) (by decide) hexpect
    have hU := ih.postfixes hclose.standing hrun
    refine ⟨hU.standing, fun rest hrest => ?_, nofun⟩
    obtain ⟨U, hderivesU, hahead⟩ := hU.derives rest hrest
    obtain ⟨T, hderives, hahead⟩ := hT.derives _ (hclose.ahead _ hahead)
    refine ⟨_, .called hderives hderivesU, ?_⟩
    simpa using hopen.ahead _ hahead
  | false =>
    obtain ⟨hnot, -⟩ := h.consume_other (by decide) hcall
    obtain ⟨index, l₂, hindex, hrun⟩ := Parsing.bind_eq_ok.1 hrun
    cases index with
    | true =>
      have hopen := hnot.standing.consume (by decide) (by decide) hindex
      obtain ⟨key, l₃, hkey, hrun⟩ := Parsing.bind_eq_ok.1 hrun
      have hT := ih.expr hopen.standing hkey
      obtain ⟨⟨⟩, l₄, hexpect, hrun⟩ := Parsing.bind_eq_ok.1 hrun
      have hclose := hT.standing.expect (by decide) (by decide) hexpect
      have hU := ih.postfixes hclose.standing hrun
      refine ⟨hU.standing, fun rest hrest => ?_, nofun⟩
      obtain ⟨U, hderivesU, hahead⟩ := hU.derives rest hrest
      obtain ⟨T, hderives, hahead⟩ := hT.derives _ (hclose.ahead _ hahead)
      refine ⟨_, .indexed hderives hderivesU, ?_⟩
      simpa using hnot.ahead _ (hopen.ahead _ hahead)
    | false =>
      obtain ⟨hnot', -⟩ := hnot.standing.consume_other (by decide) hindex
      obtain ⟨member, l₃, hmember, hrun⟩ := Parsing.bind_eq_ok.1 hrun
      cases member with
      | true =>
        obtain ⟨name, l₄, hname, hrun⟩ := Parsing.bind_eq_ok.1 hrun
        obtain ⟨hkey, htakes⟩ := hnot'.standing.memberName hmember hname
        have hU := ih.postfixes htakes.standing hrun
        refine ⟨hU.standing, fun rest hrest => ?_, nofun⟩
        obtain ⟨U, hderivesU, hahead⟩ := hU.derives rest hrest
        refine ⟨_, .selected hkey hderivesU, ?_⟩
        exact hnot.ahead _ (hnot'.ahead _ (htakes.ahead _ hahead))
      | false =>
        obtain ⟨rfl, rfl⟩ := Prod.mk.inj (Except.ok.inj hrun)
        obtain ⟨hnot'', -⟩ := hnot'.standing.consume_other (by decide) hmember
        refine ⟨hnot''.standing, fun rest hrest => ⟨[], .postfixesDone, ?_⟩, nofun⟩
        exact hnot.ahead _ (hnot'.ahead _ (hnot''.ahead _ hrest))

theorem primary_succ (ih : Sound budget) (h : l.Standing)
    (hrun : Parsing.primary (budget + 1) l = .ok (e, l')) : Yields (.primary e) false l l' := by
  rw [Parsing.primary] at hrun
  obtain ⟨paren, l₁, hparen, hrun⟩ := Parsing.bind_eq_ok.1 hrun
  cases paren with
  | true =>
    have hopen := h.consume (by decide) (by decide) hparen
    obtain ⟨inner, l₂, hinner, hrun⟩ := Parsing.bind_eq_ok.1 hrun
    have hT := ih.expr hopen.standing hinner
    obtain ⟨⟨⟩, l₃, hexpect, hrun⟩ := Parsing.bind_eq_ok.1 hrun
    obtain ⟨rfl, rfl⟩ := Prod.mk.inj (Except.ok.inj hrun)
    have hclose := hT.standing.expect (by decide) (by decide) hexpect
    refine ⟨hclose.standing, fun rest hrest => ?_, nofun⟩
    obtain ⟨T, hderives, hahead⟩ := hT.derives _ (hclose.ahead _ hrest)
    refine ⟨_, .group hderives, ?_⟩
    simpa using hopen.ahead _ hahead
  | false =>
    obtain ⟨hnot, -⟩ := h.consume_other (by decide) hparen
    obtain ⟨list, l₂, hlist, hrun⟩ := Parsing.bind_eq_ok.1 hrun
    cases list with
    | true =>
      have hopen := hnot.standing.consume (by decide) (by decide) hlist
      obtain ⟨es, l₃, hes, hrun⟩ := Parsing.bind_eq_ok.1 hrun
      have hT := ih.elements hopen.standing hes
      obtain ⟨⟨⟩, l₄, hexpect, hrun⟩ := Parsing.bind_eq_ok.1 hrun
      obtain ⟨rfl, rfl⟩ := Prod.mk.inj (Except.ok.inj hrun)
      have hclose := hT.standing.expect (by decide) (by decide) hexpect
      refine ⟨hclose.standing, fun rest hrest => ?_, nofun⟩
      obtain ⟨T, hderives, hahead⟩ := hT.derives _ (hclose.ahead _ hrest)
      refine ⟨_, .array hderives, ?_⟩
      simpa using hnot.ahead _ (hopen.ahead _ hahead)
    | false =>
      obtain ⟨hnot', -⟩ := hnot.standing.consume_other (by decide) hlist
      obtain ⟨brace, l₃, hbrace, hrun⟩ := Parsing.bind_eq_ok.1 hrun
      cases brace with
      | true =>
        have hopen := hnot'.standing.consume (by decide) (by decide) hbrace
        obtain ⟨ps, l₄, hps, hrun⟩ := Parsing.bind_eq_ok.1 hrun
        have hT := ih.properties hopen.standing hps
        obtain ⟨⟨⟩, l₅, hexpect, hrun⟩ := Parsing.bind_eq_ok.1 hrun
        obtain ⟨rfl, rfl⟩ := Prod.mk.inj (Except.ok.inj hrun)
        have hclose := hT.standing.expect (by decide) (by decide) hexpect
        refine ⟨hclose.standing, fun rest hrest => ?_, nofun⟩
        obtain ⟨T, hderives, hahead⟩ := hT.derives _ (hclose.ahead _ hrest)
        refine ⟨_, .object hderives, ?_⟩
        simpa using hnot.ahead _ (hnot'.ahead _ (hopen.ahead _ hahead))
      | false =>
        obtain ⟨hnot'', -⟩ := hnot'.standing.consume_other (by decide) hbrace
        obtain ⟨token, l₄, htoken, hrun⟩ := Parsing.bind_eq_ok.1 hrun
        cases token with
        | none => cases hrun
        | some token =>
          have htakes := hnot''.standing.nextToken? htoken
          obtain ⟨he, rfl⟩ := Parsing.ofToken_eq_ok.1 hrun
          refine ⟨htakes.standing, fun rest hrest => ⟨_, .token he, ?_⟩, nofun⟩
          exact hnot.ahead _ (hnot'.ahead _ (hnot''.ahead _ (htakes.ahead _ hrest)))

/-! ### Lists and object literals -/

/-- What follows a slot: the end of the list, or a comma and more slots. The slot is empty only if its own
phrase is. -/
theorem slots_of_slot (ih : Sound budget) (hslot : ∀ T, Derives true ph o T → Derives true (.slot e) o T)
    (hT : Yields ph o l l'')
    (hrun : (do
      if ← Parsing.consume ',' then return e :: (← Parsing.elementsRest budget close)
      else return [e]) l'' = .ok (es, l')) :
    l'.Standing ∧ ∀ rest, l'.Ahead rest → ∃ T, Derives true (.slots es) false T ∧ l.Ahead (T ++ rest) ∧
      (T = [] → Derives true ph o [] ∧ ∃ l₁, Parsing.consume ',' l'' = .ok (false, l₁)) := by
  obtain ⟨b, l₁, hcomma, hrun⟩ := Parsing.bind_eq_ok.1 hrun
  cases b with
  | false =>
    obtain ⟨rfl, rfl⟩ := Prod.mk.inj (Except.ok.inj hrun)
    obtain ⟨hnot, -⟩ := hT.standing.consume_other comma_mem hcomma
    refine ⟨hnot.standing, fun rest hrest => ?_⟩
    obtain ⟨T, hderives, hahead⟩ := hT.derives rest (hnot.ahead rest hrest)
    refine ⟨T, .lastSlot (hslot T hderives), hahead, ?_⟩
    rintro rfl
    exact ⟨hderives, l₁, hcomma⟩
  | true =>
    have htakes := hT.standing.consume comma_mem comma_ne_point hcomma
    obtain ⟨more, l₂, hmore, hrun⟩ := Parsing.bind_eq_ok.1 hrun
    obtain ⟨rfl, rfl⟩ := Prod.mk.inj (Except.ok.inj hrun)
    obtain ⟨hstanding, hU⟩ := ih.slots htakes.standing hmore
    refine ⟨hstanding, fun rest hrest => ?_⟩
    obtain ⟨U, hderivesU, hahead, -⟩ := hU rest hrest
    have hahead := htakes.ahead _ hahead
    have ho := eq_false_of_comma hT hahead
    obtain ⟨T, hderives, hahead⟩ := hT.derives _ hahead
    refine ⟨T ++ .punct ',' :: U, .moreSlots (hslot T hderives) (fun _ => ho) hderivesU, ?_, ?_⟩
    · rwa [List.append_assoc]
    · intro hnil
      cases (List.append_eq_nil_iff.1 hnil).2

theorem slots_succ (ih : Sound budget) (h : l.Standing)
    (hrun : Parsing.elementsRest (budget + 1) close l = .ok (es, l')) :
    l'.Standing ∧ ∀ rest, l'.Ahead rest → ∃ T, Derives true (.slots es) false T ∧ l.Ahead (T ++ rest) ∧
      (T = [] → ∃ l₁, Parsing.peek? l = .ok (some close, l₁)) := by
  rw [Parsing.elementsRest] at hrun
  obtain ⟨next, l₁, hpeek, hrun⟩ := Parsing.bind_eq_ok.1 hrun
  obtain ⟨hskip, -⟩ := h.peek? hpeek
  by_cases hnext : next = some ',' ∨ next = some close
  · rw [if_pos hnext, pure_bind] at hrun
    have hempty : Yields (.slot (.literal .undefined)) false l₁ l₁ :=
      ⟨hskip.standing, fun rest hrest => ⟨[], .emptySlot, hrest⟩, nofun⟩
    obtain ⟨hstanding, hT⟩ := slots_of_slot ih (fun _ hT => hT) hempty hrun
    refine ⟨hstanding, fun rest hrest => ?_⟩
    obtain ⟨T, hderives, hahead, hnil⟩ := hT rest hrest
    refine ⟨T, hderives, hskip.ahead _ hahead, fun hT => ?_⟩
    obtain ⟨-, l₂, hcomma⟩ := hnil hT
    rcases hnext with rfl | rfl
    · cases h.consume_of_peek? comma_mem hpeek hcomma
    · exact ⟨l₁, hpeek⟩
  · rw [if_neg hnext] at hrun
    obtain ⟨element, l₂, helement, hrun⟩ := Parsing.bind_eq_ok.1 hrun
    obtain ⟨o, hfilled⟩ := ih.assignment hskip.standing helement
    obtain ⟨hstanding, hT⟩ := slots_of_slot ih (fun _ hT => .filledSlot hT) hfilled hrun
    refine ⟨hstanding, fun rest hrest => ?_⟩
    obtain ⟨T, hderives, hahead, hnil⟩ := hT rest hrest
    refine ⟨T, hderives, hskip.ahead _ hahead, fun hT => ?_⟩
    obtain ⟨p, U, hcons, -⟩ := (hnil hT).1.starts rfl
    cases hcons

theorem elements_succ (ih : Sound budget) (h : l.Standing)
    (hrun : Parsing.elements (budget + 1) close l = .ok (es, l')) :
    Yields (.elements es) false l l' := by
  rw [Parsing.elements] at hrun
  obtain ⟨next, l₁, hpeek, hrun⟩ := Parsing.bind_eq_ok.1 hrun
  obtain ⟨hskip, hagain⟩ := h.peek? hpeek
  cases next with
  | none =>
    obtain ⟨rfl, rfl⟩ := Prod.mk.inj (Except.ok.inj hrun)
    exact ⟨hskip.standing, fun rest hrest => ⟨[], .noElements, hskip.ahead _ hrest⟩, nofun⟩
  | some c =>
    by_cases hclose : c = close
    · simp only [hclose, if_true] at hrun
      obtain ⟨rfl, rfl⟩ := Prod.mk.inj (Except.ok.inj hrun)
      exact ⟨hskip.standing, fun rest hrest => ⟨[], .noElements, hskip.ahead _ hrest⟩, nofun⟩
    · simp only [hclose, if_false] at hrun
      obtain ⟨hstanding, hT⟩ := ih.slots hskip.standing hrun
      refine ⟨hstanding, fun rest hrest => ?_, nofun⟩
      obtain ⟨T, hderives, hahead, hempty⟩ := hT rest hrest
      refine ⟨T, .someElements hderives fun hnil => ?_, hskip.ahead _ hahead⟩
      obtain ⟨l₂, hpeek'⟩ := hempty hnil
      exact hclose (Option.some.inj (hagain _ _ hpeek')).symm

theorem places_of_place (ih : Sound budget) (hT : Yields (.place ps) o l l'')
    {qs : List Property}
    (hrun : (do
      if ← Parsing.consume ',' then return ps ++ (← Parsing.propertiesRest budget)
      else return ps) l'' = .ok (qs, l')) : Yields (.places qs) false l l' := by
  obtain ⟨b, l₁, hcomma, hrun⟩ := Parsing.bind_eq_ok.1 hrun
  cases b with
  | false =>
    obtain ⟨rfl, rfl⟩ := Prod.mk.inj (Except.ok.inj hrun)
    obtain ⟨hnot, -⟩ := hT.standing.consume_other comma_mem hcomma
    refine ⟨hnot.standing, fun rest hrest => ?_, nofun⟩
    obtain ⟨T, hderives, hahead⟩ := hT.derives rest (hnot.ahead rest hrest)
    exact ⟨T, .lastPlace hderives, hahead⟩
  | true =>
    have htakes := hT.standing.consume comma_mem comma_ne_point hcomma
    obtain ⟨more, l₂, hmore, hrun⟩ := Parsing.bind_eq_ok.1 hrun
    obtain ⟨rfl, rfl⟩ := Prod.mk.inj (Except.ok.inj hrun)
    have hU := ih.places htakes.standing hmore
    refine ⟨hU.standing, fun rest hrest => ?_, nofun⟩
    obtain ⟨U, hderivesU, hahead⟩ := hU.derives rest hrest
    have hahead := htakes.ahead _ hahead
    have ho := eq_false_of_comma hT hahead
    obtain ⟨T, hderives, hahead⟩ := hT.derives _ hahead
    refine ⟨T ++ .punct ',' :: U, .morePlaces hderives (fun _ => ho) hderivesU, ?_⟩
    rwa [List.append_assoc]

theorem places_succ (ih : Sound budget) (h : l.Standing)
    (hrun : Parsing.propertiesRest (budget + 1) l = .ok (ps, l')) : Yields (.places ps) false l l' := by
  rw [Parsing.propertiesRest] at hrun
  obtain ⟨next, l₁, hpeek, hrun⟩ := Parsing.bind_eq_ok.1 hrun
  obtain ⟨hskip, -⟩ := h.peek? hpeek
  suffices hT : Yields (.places ps) false l₁ l' by
    refine ⟨hT.standing, fun rest hrest => ?_, nofun⟩
    obtain ⟨T, hderives, hahead⟩ := hT.derives rest hrest
    exact ⟨T, hderives, hskip.ahead _ hahead⟩
  by_cases hnext : next = some ',' ∨ next = some '\x7d'
  · rw [if_pos hnext, pure_bind] at hrun
    have hempty : Yields (.place []) false l₁ l₁ :=
      ⟨hskip.standing, fun rest hrest => ⟨[], .emptyPlace, hrest⟩, nofun⟩
    exact places_of_place ih hempty hrun
  · rw [if_neg hnext] at hrun
    obtain ⟨place, l₂, hplace, hrun⟩ := Parsing.bind_eq_ok.1 hrun
    obtain ⟨p, l₃, hp, hplace⟩ := Parsing.bind_eq_ok.1 hplace
    obtain ⟨rfl, rfl⟩ := Prod.mk.inj (Except.ok.inj hplace)
    obtain ⟨o, hT⟩ := ih.property hskip.standing hp
    refine places_of_place ih ⟨hT.standing, fun rest hrest => ?_, hT.fed⟩ hrun
    obtain ⟨T, hderives, hahead⟩ := hT.derives rest hrest
    exact ⟨T, .filledPlace hderives, hahead⟩

theorem properties_succ (ih : Sound budget) (h : l.Standing)
    (hrun : Parsing.properties (budget + 1) l = .ok (ps, l')) :
    Yields (.properties ps) false l l' := by
  rw [Parsing.properties] at hrun
  obtain ⟨next, l₁, hpeek, hrun⟩ := Parsing.bind_eq_ok.1 hrun
  obtain ⟨hskip, -⟩ := h.peek? hpeek
  cases next with
  | none =>
    obtain ⟨rfl, rfl⟩ := Prod.mk.inj (Except.ok.inj hrun)
    exact ⟨hskip.standing, fun rest hrest => ⟨[], .noProperties, hskip.ahead _ hrest⟩, nofun⟩
  | some c =>
    by_cases hclose : c = '\x7d'
    · simp only [hclose, if_true] at hrun
      obtain ⟨rfl, rfl⟩ := Prod.mk.inj (Except.ok.inj hrun)
      exact ⟨hskip.standing, fun rest hrest => ⟨[], .noProperties, hskip.ahead _ hrest⟩, nofun⟩
    · simp only [hclose, if_false] at hrun
      have hT := ih.places hskip.standing hrun
      refine ⟨hT.standing, fun rest hrest => ?_, nofun⟩
      obtain ⟨T, hderives, hahead⟩ := hT.derives rest hrest
      exact ⟨T, .someProperties hderives, hskip.ahead _ hahead⟩

/-- The value behind a key that is a token and a colon. -/
theorem valued {key : Piece} {mk : Expr → Property} {l₁ l₂ : Lexer} (ih : Sound budget)
    (hkey : Takes l l₁ [key]) (hcolon : Takes l₁ l₂ [.punct ':'])
    (hrun : (do return mk (← Parsing.assignment budget)) l₂ = .ok (p, l'))
    (hmk : ∀ {value o T}, Derives true (.assignment value) o T →
      Derives true (.property (mk value)) o (key :: .punct ':' :: T)) :
    ∃ o, Yields (.property p) o l l' := by
  obtain ⟨value, l₃, hvalue, hrun⟩ := Parsing.bind_eq_ok.1 hrun
  obtain ⟨rfl, rfl⟩ := Prod.mk.inj (Except.ok.inj hrun)
  obtain ⟨o, hT⟩ := ih.assignment hcolon.standing hvalue
  refine ⟨o, hT.standing, fun rest hrest => ?_, hT.fed⟩
  obtain ⟨T, hderives, hahead⟩ := hT.derives rest hrest
  exact ⟨_, hmk hderives, hkey.ahead _ (hcolon.ahead _ hahead)⟩

/-- The colon and the value behind a key that is a token. -/
theorem valued_of_expect {key : Piece} {mk : Expr → Property} {l₁ : Lexer} (ih : Sound budget) (hkey : Takes l l₁ [key])
    (hrun : (do
      Parsing.expect ':'
      return mk (← Parsing.assignment budget)) l₁ = .ok (p, l'))
    (hmk : ∀ {value o T}, Derives true (.assignment value) o T →
      Derives true (.property (mk value)) o (key :: .punct ':' :: T)) :
    ∃ o, Yields (.property p) o l l' := by
  obtain ⟨⟨⟩, l₂, hexpect, hrun⟩ := Parsing.bind_eq_ok.1 hrun
  have hcolon := hkey.standing.expect (by decide) (by decide) hexpect
  exact ih.valued hkey hcolon hrun hmk

theorem property_succ (ih : Sound budget) (h : l.Standing)
    (hrun : Parsing.property (budget + 1) l = .ok (p, l')) : ∃ o, Yields (.property p) o l l' := by
  rw [Parsing.property] at hrun
  obtain ⟨bracket, l₁, hbracket, hrun⟩ := Parsing.bind_eq_ok.1 hrun
  cases bracket with
  | true =>
    have hopen := h.consume (by decide) (by decide) hbracket
    obtain ⟨key, l₂, hkey, hrun⟩ := Parsing.bind_eq_ok.1 hrun
    obtain ⟨o', hT⟩ := ih.assignment hopen.standing hkey
    obtain ⟨⟨⟩, l₃, hexpect, hrun⟩ := Parsing.bind_eq_ok.1 hrun
    have hclose := hT.standing.expect (by decide) (by decide) hexpect
    obtain ⟨⟨⟩, l₄, hexpect', hrun⟩ := Parsing.bind_eq_ok.1 hrun
    have hcolon := hclose.standing.expect (by decide) (by decide) hexpect'
    obtain ⟨value, l₅, hvalue, hrun⟩ := Parsing.bind_eq_ok.1 hrun
    obtain ⟨rfl, rfl⟩ := Prod.mk.inj (Except.ok.inj hrun)
    obtain ⟨o, hU⟩ := ih.assignment hcolon.standing hvalue
    refine ⟨o, hU.standing, fun rest hrest => ?_, hU.fed⟩
    obtain ⟨U, hderivesU, hahead⟩ := hU.derives rest hrest
    obtain ⟨T, hderives, hahead⟩ := hT.derives _ (hclose.ahead _ (hcolon.ahead _ hahead))
    refine ⟨_, .computed hderives hderivesU, ?_⟩
    simpa using hopen.ahead _ hahead
  | false =>
    obtain ⟨hnot, -⟩ := h.consume_other (by decide) hbracket
    obtain ⟨token, l₂, htoken, hrun⟩ := Parsing.bind_eq_ok.1 hrun
    cases token with
    | none => cases hrun
    | some token =>
      have htakes := hnot.trans (hnot.standing.nextToken? htoken)
      obtain ⟨kind, text, span, name⟩ := token
      cases kind with
      | number => exact ih.valued_of_expect htakes hrun .constant
      | string => exact ih.valued_of_expect htakes hrun .constant
      | identifier =>
        by_cases hkey : isKeyword text = true
        · simp only [hkey, if_true] at hrun
          exact ih.valued_of_expect htakes hrun .named
        · simp only [hkey, if_false, Bool.false_eq_true] at hrun
          obtain ⟨colon, l₃, hcolon, hrun⟩ := Parsing.bind_eq_ok.1 hrun
          cases colon with
          | true => exact ih.valued htakes (htakes.standing.consume (by decide) (by decide) hcolon) hrun .named
          | false =>
            obtain ⟨rfl, rfl⟩ := Prod.mk.inj (Except.ok.inj hrun)
            obtain ⟨hnot', -⟩ := htakes.standing.consume_other (by decide) hcolon
            refine ⟨false, hnot'.standing, fun rest hrest => ?_, nofun⟩
            exact ⟨_, .shorthand (by simpa using hkey), htakes.ahead _ (hnot'.ahead _ hrest)⟩
      | symbol => cases hrun

end Sound

/-- With any budget the parser yields its phrases. -/
theorem sound (budget : Nat) : Sound budget := by
  induction budget with
  | zero =>
    constructor
    case chain =>
      intro l l' levels e _ hrun
      cases levels <;> cases hrun
    all_goals
      intros
      contradiction
  | succ budget ih =>
    exact {
      expr := ih.expr_succ
      items := ih.items_succ
      assignment := ih.assignment_succ
      ternary := ih.ternary_succ
      chain := ih.chain_succ
      chainRest := ih.chainRest_succ
      unary := ih.unary_succ
      postfixes := ih.postfixes_succ
      primary := ih.primary_succ
      elements := ih.elements_succ
      slots := ih.slots_succ
      properties := ih.properties_succ
      places := ih.places_succ
      property := ih.property_succ }

/-- A tree that the parser returns is derived greedily from the tokens of the whole source. -/
theorem reads_of_parse {source : String} (h : Expr.parse source .builtIn = .ok e) :
    ∃ T, Reads SymbolTable.builtIn.all source.toList T ∧ Derives true (.expr e) true T := by
  have hstart : (Lexer.ofSource source .builtIn).Standing := (At.ofSource source .builtIn).standing
  rw [Expr.parse] at h
  cases hwhole : Parsing.whole (Expr.parseBudget source) (.ofSource source .builtIn) with
  | error err =>
    have hrun : (Parsing.whole (Expr.parseBudget source)).run (.ofSource source .builtIn) =
        .error err := hwhole
    rw [hrun] at h
    cases h
  | ok answer =>
    obtain ⟨e', l'⟩ := answer
    have hrun : (Parsing.whole (Expr.parseBudget source)).run (.ofSource source .builtIn) =
        .ok (e', l') := hwhole
    rw [hrun] at h
    obtain rfl : e' = e := Except.ok.inj h
    rw [Parsing.whole] at hwhole
    obtain ⟨e, l₁, hexpr, hwhole⟩ := Parsing.bind_eq_ok.1 hwhole
    obtain ⟨more, l₂, hmore, hwhole⟩ := Parsing.bind_eq_ok.1 hwhole
    cases more with
    | true => cases hwhole
    | false =>
      obtain ⟨rfl, rfl⟩ := Prod.mk.inj (Except.ok.inj hwhole)
      have hT := (sound _).expr hstart hexpr
      obtain ⟨T, hderives, hahead⟩ := hT.derives [] (hT.standing.hasRemaining hmore)
      rw [List.append_nil, (At.ofSource source .builtIn).ahead_iff] at hahead
      exact ⟨T, hahead, hderives⟩

/-- A source that is parsed is one that can be tokenized, and all of its tokens, each once and in their
order, make up the tree in the grammar. -/
theorem parse_sound (source : String) (e : Expr) (h : Expr.parse source .builtIn = .ok e) :
    ∃ tokens, tokenize source .builtIn = (tokens, none) ∧
      Derives false (.expr e) true (tokens.map Token.piece) := by
  obtain ⟨T, hreads, hderives⟩ := reads_of_parse h
  obtain ⟨tokens, htokens, rfl⟩ := tokenize_iff_reads.2 hreads
  exact ⟨tokens, htokens, hderives.documented⟩

theorem parse_sound_assignment :
    Expr.parse "a.b = f(1,, c)" .builtIn = .ok (.assign (.member (.identifier "a") "b")
        (.call (.identifier "f") [.constant .number "1", .literal .undefined, .identifier "c"])) ∧
      ∃ tokens, tokenize "a.b = f(1,, c)" .builtIn = (tokens, none) ∧
        Derives false (.expr (.assign (.member (.identifier "a") "b")
          (.call (.identifier "f") [.constant .number "1", .literal .undefined, .identifier "c"]))) true
          (tokens.map Token.piece) := by
  have h : Expr.parse "a.b = f(1,, c)" .builtIn = .ok (.assign (.member (.identifier "a") "b")
      (.call (.identifier "f") [.constant .number "1", .literal .undefined, .identifier "c"])) := by cbv
  exact ⟨h, parse_sound _ _ h⟩

end LatentExpr
