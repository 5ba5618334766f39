import LatentExpr.Proofs.Expr.Throughout
import LatentExpr.Proofs.Grammar.Soundness
import LatentExpr.Proofs.Token.Tables

/-!
Trees that a table of symbols admits. Whatever the table is, in a tree that the parser returns every target
can be assigned to, every sequence has two items, no name is a keyword, every constant is a token, and every
operator is one that its symbol names in the group of its level (`Expr.admitted_of_parse`).

The parser is gone through once, with any invariant of the lexer that its requests keep (`Parsing.Keeping`).
-/
namespace LatentExpr

/-! ### Operators of a table -/

/-- The built-in operators before an operand. -/
def UnaryOp.builtIn : List UnaryOp := [plus, neg, not]

/-- An operator of a level: its symbol is listed in the group of the level, and it is the built-in one of the
level, or custom where no built-in one has its symbol. -/
structure BinaryOp.Belongs (t : SymbolTable) (level : BinaryLevel) (op : BinaryOp) : Prop where
  listed : t.Lists level.group op.symbol
  meant : op ∈ builtIn level ∨ op = .custom op.symbol ∧ ∀ b ∈ builtIn level, b.symbol ≠ op.symbol

/-- The same for an operator before an operand. -/
structure UnaryOp.Belongs (t : SymbolTable) (op : UnaryOp) : Prop where
  listed : t.Lists .unary op.symbol
  meant : op ∈ builtIn ∨ op = .custom op.symbol ∧ ∀ b ∈ builtIn, b.symbol ≠ op.symbol

theorem BinaryOp.belongs_ofSymbol {t : SymbolTable} {level : BinaryLevel} {symbol : String}
    (h : t.Lists level.group symbol) : (ofSymbol level symbol).Belongs t level := by
  unfold ofSymbol
  cases hfind : (builtIn level).find? fun op => op.symbol = symbol with
  | some op =>
    have hsymbol : op.symbol = symbol := by simpa using List.find?_some hfind
    exact ⟨hsymbol.symm ▸ h, .inl (List.mem_of_find?_eq_some hfind)⟩
  | none => exact ⟨h, .inr ⟨rfl, fun b hb hs => List.find?_eq_none.1 hfind b hb (decide_eq_true hs)⟩⟩

theorem UnaryOp.belongs_ofSymbol {t : SymbolTable} {symbol : String} (h : t.Lists .unary symbol) :
    (ofSymbol symbol).Belongs t := by
  unfold ofSymbol
  cases hfind : [plus, neg, not].find? fun op => op.symbol = symbol with
  | some op =>
    have hsymbol : op.symbol = symbol := by simpa using List.find?_some hfind
    exact ⟨hsymbol.symm ▸ h, .inl (List.mem_of_find?_eq_some hfind)⟩
  | none => exact ⟨h, .inr ⟨rfl, fun b hb hs => List.find?_eq_none.1 hfind b hb (decide_eq_true hs)⟩⟩

namespace SymbolTable

/-- What a table admits of a single expression, its parts apart. -/
def Admits (t : SymbolTable) : Expr → Prop
  | .assign target _ => target.isWritable = true
  | .comma items => 2 ≤ items.length
  | .binary level op _ _ => op.Belongs t level
  | .unary op _ => op.Belongs t
  | .identifier name | .member _ name => isKeyword name = false
  | .constant kind text => kind.IsToken t text
  | _ => True

/-- What a table admits of a single property, its parts apart. -/
def AdmitsProperty (t : SymbolTable) : Property → Prop
  | .constant kind text _ => kind.IsToken t text
  | _ => True

end SymbolTable

/-- A tree of which a table admits every expression and every property. -/
abbrev Expr.Admitted (t : SymbolTable) (e : Expr) : Prop := e.Throughout t.Admits t.AdmitsProperty

abbrev Property.Admitted (t : SymbolTable) (p : Property) : Prop := p.Throughout t.Admits t.AdmitsProperty

/-! ### Steps of reading -/

namespace Parsing
variable {α β : Type} {t : SymbolTable} {I : Lexer → Prop} {P : α → Prop} {Q : β → Prop} {x : Parsing α}
  {f : α → Parsing β}

/-- What an invariant of a lexer owes so that a parser keeps it: every request of the parser keeps it, where a
point that is taken is looked at together with the name behind it. -/
structure Keeping (t : SymbolTable) (I : Lexer → Prop) : Prop where
  table : ∀ {l : Lexer}, I l → l.symbols = t
  advance : Lexing.Keeps I Lexer.advance
  peek? : Lexing.Keeps I Lexer.peek?
  nextToken? : Lexing.Keeps I Lexer.nextToken?
  consumeSymbol? : ∀ g ≠ OperatorGroup.punctuation, Lexing.Keeps I (Lexer.consumeSymbol? g)
  consumeText : ∀ op : LogicalOp, Lexing.Keeps I (Lexer.consumeText op.symbol)
  consume : ∀ c ∈ Lexeme.punctuation, c ≠ '.' → Lexing.Keeps I (Lexer.consume c)
  no_point : ∀ {l l' : Lexer}, I l → Lexer.consume '.' l = (.ok false, l') → I l'
  point : ∀ {l l' l'' : Lexer} {token : Token}, I l → Lexer.consume '.' l = (.ok true, l') →
    Lexer.nextIdentifier? l' = (.ok (some token), l'') → I l''

/-- No request of a parser changes the table. -/
theorem keeping_table {definitions : List (String × List String)} (ht : t = .ofGroups definitions) :
    Keeping t fun l => l.symbols = t where
  table h := h
  advance := Lexer.gives_advance.keeps
  peek? := Lexer.gives_peek?.keeps
  nextToken? := Lexer.gives_nextToken?.keeps
  consumeSymbol? g _ := (Lexer.gives_consumeSymbol? ht g).keeps
  consumeText op := (Lexer.gives_consumeText op.symbol).keeps
  consume c _ _ := (Lexer.gives_consume c).keeps
  no_point hl h := (Lexer.gives_consume '.').keeps hl h
  point hl h h' := Lexer.gives_nextIdentifier?.keeps ((Lexer.gives_consume '.').keeps hl h) h'

/-- A step of reading keeps an invariant of the lexer, and what it returns has a property. -/
def Gives (I : Lexer → Prop) (x : Parsing α) (P : α → Prop) : Prop :=
  ∀ (l l' : Lexer) a, I l → x l = .ok (a, l') → I l' ∧ P a

theorem Gives.pure {a : α} (ha : P a) : Gives I (Pure.pure a) P := by
  rintro l l' a hl ⟨⟩
  exact ⟨hl, ha⟩

theorem Gives.bind (hx : Gives I x P) (hf : ∀ a, P a → Gives I (f a) Q) : Gives I (x >>= f) Q := by
  intro l l'' b hl h
  obtain ⟨a, l', hanswer, hrest⟩ := bind_eq_ok.1 h
  obtain ⟨hl', ha⟩ := hx l l' a hl hanswer
  exact hf a ha l' l'' b hl' hrest

/-- A step that only fails returns nothing. -/
theorem Gives.fail (h : ∀ l, ∃ e, x l = .error e) : Gives I x P := by
  rintro l l' a - hok
  obtain ⟨e, he⟩ := h l
  rw [he] at hok
  cases hok

theorem Gives.get : Gives I get fun _ => True := by
  rintro l l' a hl ⟨⟩
  exact ⟨hl, trivial⟩

theorem gives_tooDeep : Gives I (tooDeep : Parsing α) P := .fail fun _ => ⟨_, rfl⟩

theorem gives_unexpected (expected : String) : Gives I (unexpected expected : Parsing α) P :=
  .fail fun _ => ⟨_, rfl⟩

/-- A number or string that was taken is a constant. -/
theorem isToken_of_lexeme? {token : Token} {kind : ConstantKind} {start rest : List Char}
    (h : Lexeme.lexeme? t.all start = some (token.piece, rest)) (hkind : token.kind = kind.token) :
    kind.IsToken t token.text := by
  have hpiece : token.piece = ⟨kind.token, token.text⟩ := by rw [← hkind]; rfl
  rw [hpiece] at h
  exact Lexeme.tokenize_text h (by cases kind <;> exact nofun)

theorem gives_ofToken {token : Token} {start rest : List Char}
    (h : Lexeme.lexeme? t.all start = some (token.piece, rest)) :
    Gives I (ofToken token) (Expr.Admitted t) := by
  intro l l' e hl hok
  obtain ⟨he, rfl⟩ := ofToken_eq_ok.1 hok
  refine ⟨hl, ?_⟩
  rcases Piece.expr?_cases he with ⟨-, rfl⟩ | ⟨value, -, rfl⟩ | ⟨name, hname, -, rfl⟩ |
    ⟨kind, text, hpiece, rfl⟩
  · exact ⟨trivial, trivial⟩
  · exact ⟨trivial, trivial⟩
  · exact ⟨hname, trivial⟩
  · obtain rfl : token.text = text := congrArg Piece.text hpiece
    exact ⟨isToken_of_lexeme? h (congrArg Piece.kind hpiece), trivial⟩

namespace Keeping
variable (hI : Keeping t I)
include hI

theorem gives_ask {request : Lexing α} (hk : Lexing.Keeps I request) (h : Lexing.Gives t request P) :
    Gives I (ask request) P := by
  intro l l' a hl hok
  have hanswer := ask_eq_ok.1 hok
  exact ⟨hk hl hanswer, (h l l' a (hI.table hl) hanswer).2⟩

theorem gives_consume {c : Char} (hc : c ∈ Lexeme.punctuation ∧ c ≠ '.') :
    Gives I (Parsing.consume c) fun _ => True := hI.gives_ask (hI.consume c hc.1 hc.2) (Lexer.gives_consume c)

theorem gives_peek? : Gives I Parsing.peek? fun _ => True := hI.gives_ask hI.peek? Lexer.gives_peek?

theorem gives_expect {c : Char} (hc : c ∈ Lexeme.punctuation ∧ c ≠ '.') :
    Gives I (expect c) fun _ => True := by
  refine .bind (hI.gives_consume hc) fun b _ => ?_
  split
  · exact gives_unexpected _
  · exact .pure trivial

/-- A point and a name, or what comes instead. -/
theorem gives_point {member : String → Parsing α} {other : Parsing α}
    (hmember : ∀ name, isKeyword name = false → Gives I (member name) P) (hother : Gives I other P) :
    Gives I (do if ← Parsing.consume '.' then (do member (← memberName)) else other) P := by
  intro l l'' a hl hok
  obtain ⟨b, l', hconsume, hok⟩ := bind_eq_ok.1 hok
  have hconsume := ask_eq_ok.1 hconsume
  cases b with
  | false => exact hother l' l'' a (hI.no_point hl hconsume) hok
  | true =>
    obtain ⟨name, l₁, hname, hok⟩ := bind_eq_ok.1 hok
    obtain ⟨hkeyword, token, hnext, -⟩ := memberName_eq_ok hname
    exact hmember name hkeyword l₁ l'' a (hI.point hl hconsume hnext) hok

/-- What an operator puts between two admitted operands is admitted. -/
theorem gives_operator? {definitions : List (String × List String)} (ht : t = .ofGroups definitions)
    (level : Level) : Gives I (operator? level) fun answer => ∀ join ∈ answer,
      ∀ left right, left.Admitted t → right.Admitted t → (join left right).Admitted t := by
  cases level with
  | logical op =>
    refine .bind (hI.gives_ask (hI.consumeText op) (Lexer.gives_consumeText op.symbol)) fun b _ => ?_
    split
    · refine .pure ?_
      rintro join ⟨⟩ left right hl hr
      exact ⟨trivial, hl, hr⟩
    · exact .pure nofun
  | binary level =>
    have hgroup : level.group ≠ .punctuation := by cases level <;> decide
    refine .bind (hI.gives_ask (hI.consumeSymbol? _ hgroup) (Lexer.gives_consumeSymbol? ht level.group))
      fun answer hanswer => .pure ?_
    intro join hjoin left right hl hr
    obtain ⟨name, hname, rfl⟩ := Option.map_eq_some_iff.1 hjoin
    exact ⟨BinaryOp.belongs_ofSymbol (hanswer name hname), hl, hr⟩

end Keeping

end Parsing

/-! ### The grammar -/

/-- Every function of the parser keeps an invariant and returns admitted trees, with a budget. -/
structure ParsesAdmitted (t : SymbolTable) (I : Lexer → Prop) (budget : Nat) : Prop where
  expr : Parsing.Gives I (Parsing.expr budget) (Expr.Admitted t)
  items : Parsing.Gives I (Parsing.ternaries budget) fun es => es ≠ [] ∧ ∀ e ∈ es, e.Admitted t
  assignment : Parsing.Gives I (Parsing.assignment budget) (Expr.Admitted t)
  ternary : Parsing.Gives I (Parsing.ternary budget) (Expr.Admitted t)
  chain : ∀ levels, Parsing.Gives I (Parsing.chain budget levels) (Expr.Admitted t)
  chainRest : ∀ level tighter left, left.Admitted t →
    Parsing.Gives I (Parsing.chainRest budget level tighter left) (Expr.Admitted t)
  unary : Parsing.Gives I (Parsing.unary budget) (Expr.Admitted t)
  postfixes : ∀ e, e.Admitted t → Parsing.Gives I (Parsing.postfixes budget e) (Expr.Admitted t)
  primary : Parsing.Gives I (Parsing.primary budget) (Expr.Admitted t)
  elements : ∀ close, Parsing.Gives I (Parsing.elements budget close) fun es => ∀ e ∈ es, e.Admitted t
  slots : ∀ close, Parsing.Gives I (Parsing.elementsRest budget close) fun es => ∀ e ∈ es, e.Admitted t
  properties : Parsing.Gives I (Parsing.properties budget) fun ps => ∀ p ∈ ps, p.Admitted t
  places : Parsing.Gives I (Parsing.propertiesRest budget) fun ps => ∀ p ∈ ps, p.Admitted t
  property : Parsing.Gives I (Parsing.property budget) (Property.Admitted t)

namespace ParsesAdmitted
variable {t : SymbolTable} {I : Lexer → Prop} {budget : Nat} {definitions : List (String × List String)}

open Parsing

theorem expr_succ (hI : Keeping t I) (ih : ParsesAdmitted t I budget) :
    Gives I (Parsing.expr (budget + 1)) (Expr.Admitted t) := by
  rw [Parsing.expr]
  refine .bind ih.assignment fun first hfirst => .bind (hI.gives_consume (by decide)) fun b _ => ?_
  split
  · refine .bind ih.items fun es hitems => .pure ?_
    obtain ⟨hne, hes⟩ := hitems
    refine ⟨?_, throughoutAll_iff.2 ?_⟩
    · have := List.length_pos_iff.2 hne
      show 2 ≤ (first :: es).length
      rw [List.length_cons]
      omega
    · exact List.forall_mem_cons.2 ⟨hfirst, hes⟩
  · exact .pure hfirst

theorem items_succ (hI : Keeping t I) (ih : ParsesAdmitted t I budget) :
    Gives I (Parsing.ternaries (budget + 1)) fun es => es ≠ [] ∧ ∀ e ∈ es, e.Admitted t := by
  rw [Parsing.ternaries]
  refine .bind ih.ternary fun item hitem => .bind (hI.gives_consume (by decide)) fun b _ => ?_
  split
  · exact .bind ih.items fun es hitems =>
      .pure ⟨List.cons_ne_nil _ _, List.forall_mem_cons.2 ⟨hitem, hitems.2⟩⟩
  · exact .pure ⟨List.cons_ne_nil _ _, List.forall_mem_singleton.2 hitem⟩

theorem assignment_succ (ht : t = .ofGroups definitions) (hI : Keeping t I) (ih : ParsesAdmitted t I budget) :
    Gives I (Parsing.assignment (budget + 1)) (Expr.Admitted t) := by
  rw [Parsing.assignment]
  refine .bind (hI.gives_ask hI.advance Lexer.gives_advance) fun _ _ => .bind .get fun _ _ => .bind ih.ternary
    fun target htarget => .bind (hI.gives_ask (hI.consumeSymbol? _ (by decide))
      (Lexer.gives_consumeSymbol? ht _)) fun answer _ => ?_
  split
  · exact .pure htarget
  · split
    · rename_i hwritable
      exact .bind ih.assignment fun value hvalue => .pure ⟨hwritable, htarget, hvalue⟩
    · exact .fail fun _ => ⟨_, rfl⟩

theorem ternary_succ (hI : Keeping t I) (ih : ParsesAdmitted t I budget) :
    Gives I (Parsing.ternary (budget + 1)) (Expr.Admitted t) := by
  rw [Parsing.ternary]
  refine .bind (ih.chain _) fun test htest => .bind (hI.gives_consume (by decide)) fun b _ => ?_
  split
  · exact .bind ih.expr fun consequent hconsequent => .bind (hI.gives_expect (by decide)) fun _ _ =>
      .bind ih.expr fun alternate halternate => .pure ⟨trivial, htest, hconsequent, halternate⟩
  · exact .pure htest

theorem chain_succ (ih : ParsesAdmitted t I budget) (levels : List Level) :
    Gives I (Parsing.chain (budget + 1) levels) (Expr.Admitted t) := by
  cases levels with
  | nil =>
    rw [Parsing.chain]
    exact ih.unary
  | cons level tighter =>
    rw [Parsing.chain]
    exact .bind (ih.chain tighter) fun left hleft => ih.chainRest level tighter left hleft

theorem chainRest_succ (ht : t = .ofGroups definitions) (hI : Keeping t I) (ih : ParsesAdmitted t I budget)
    (level : Level) (tighter : List Level) {left : Expr} (hleft : left.Admitted t) :
    Gives I (Parsing.chainRest (budget + 1) level tighter left) (Expr.Admitted t) := by
  rw [Parsing.chainRest]
  refine .bind (hI.gives_operator? ht level) fun answer hanswer => ?_
  split
  · exact .pure hleft
  · rename_i join
    exact .bind (ih.chain tighter) fun right hright =>
      ih.chainRest level tighter _ (hanswer join rfl left right hleft hright)

theorem unary_succ (ht : t = .ofGroups definitions) (hI : Keeping t I) (ih : ParsesAdmitted t I budget) :
    Gives I (Parsing.unary (budget + 1)) (Expr.Admitted t) := by
  rw [Parsing.unary]
  refine .bind (hI.gives_ask (hI.consumeSymbol? _ (by decide)) (Lexer.gives_consumeSymbol? ht _))
    fun answer hanswer => ?_
  split
  · rename_i name
    exact .bind ih.unary fun operand hoperand =>
      .pure ⟨UnaryOp.belongs_ofSymbol (hanswer name rfl), hoperand⟩
  · exact .bind ih.primary fun e he => ih.postfixes e he

theorem postfixes_succ (hI : Keeping t I) (ih : ParsesAdmitted t I budget) {e : Expr} (he : e.Admitted t) :
    Gives I (Parsing.postfixes (budget + 1) e) (Expr.Admitted t) := by
  rw [Parsing.postfixes]
  refine .bind (hI.gives_consume (by decide)) fun b _ => ?_
  split
  · exact .bind (ih.elements _) fun args hargs => .bind (hI.gives_expect (by decide)) fun _ _ =>
      ih.postfixes _ ⟨trivial, he, throughoutAll_iff.2 hargs⟩
  refine .bind (hI.gives_consume (by decide)) fun b _ => ?_
  split
  · exact .bind ih.expr fun key hkey => .bind (hI.gives_expect (by decide)) fun _ _ =>
      ih.postfixes _ ⟨trivial, he, hkey⟩
  exact hI.gives_point (fun name hname => ih.postfixes _ ⟨hname, he⟩) (.pure he)

theorem primary_succ (hI : Keeping t I) (ih : ParsesAdmitted t I budget) :
    Gives I (Parsing.primary (budget + 1)) (Expr.Admitted t) := by
  rw [Parsing.primary]
  refine .bind (hI.gives_consume (by decide)) fun b _ => ?_
  split
  · exact .bind ih.expr fun e he => .bind (hI.gives_expect (by decide)) fun _ _ => .pure he
  refine .bind (hI.gives_consume (by decide)) fun b _ => ?_
  split
  · exact .bind (ih.elements _) fun es hes => .bind (hI.gives_expect (by decide)) fun _ _ =>
      .pure ⟨trivial, throughoutAll_iff.2 hes⟩
  refine .bind (hI.gives_consume (by decide)) fun b _ => ?_
  split
  · exact .bind ih.properties fun ps hps => .bind (hI.gives_expect (by decide)) fun _ _ =>
      .pure ⟨trivial, throughoutProperties_iff.2 hps⟩
  refine .bind (hI.gives_ask hI.nextToken? Lexer.gives_nextToken?) fun answer hanswer => ?_
  split
  · exact gives_unexpected _
  · rename_i token
    obtain ⟨start, rest, hl⟩ := hanswer token rfl
    exact gives_ofToken hl

theorem elements_succ (hI : Keeping t I) (ih : ParsesAdmitted t I budget) (close : Char) :
    Gives I (Parsing.elements (budget + 1) close) fun es => ∀ e ∈ es, e.Admitted t := by
  rw [Parsing.elements]
  refine .bind hI.gives_peek? fun answer _ => ?_
  split
  · exact .pure (List.forall_mem_nil _)
  · split
    · exact .pure (List.forall_mem_nil _)
    · exact ih.slots close

theorem slots_succ (hI : Keeping t I) (ih : ParsesAdmitted t I budget) (close : Char) :
    Gives I (Parsing.elementsRest (budget + 1) close) fun es => ∀ e ∈ es, e.Admitted t := by
  rw [Parsing.elementsRest]
  have hmore (element : Expr) (helement : element.Admitted t) :
      Gives I (do
        if ← consume ',' then return element :: (← Parsing.elementsRest budget close)
        else return [element]) fun es => ∀ e ∈ es, e.Admitted t := by
    refine .bind (hI.gives_consume (by decide)) fun b _ => ?_
    split
    · exact .bind (ih.slots close) fun es hes => .pure (List.forall_mem_cons.2 ⟨helement, hes⟩)
    · exact .pure (List.forall_mem_singleton.2 helement)
  refine .bind hI.gives_peek? fun next _ => ?_
  dsimp only
  split
  · exact .bind (.pure ⟨trivial, trivial⟩) hmore
  · exact .bind ih.assignment hmore

theorem properties_succ (hI : Keeping t I) (ih : ParsesAdmitted t I budget) :
    Gives I (Parsing.properties (budget + 1)) fun ps => ∀ p ∈ ps, p.Admitted t := by
  rw [Parsing.properties]
  refine .bind hI.gives_peek? fun answer _ => ?_
  split
  · exact .pure (List.forall_mem_nil _)
  · split
    · exact .pure (List.forall_mem_nil _)
    · exact ih.places

theorem places_succ (hI : Keeping t I) (ih : ParsesAdmitted t I budget) :
    Gives I (Parsing.propertiesRest (budget + 1)) fun ps => ∀ p ∈ ps, p.Admitted t := by
  rw [Parsing.propertiesRest]
  have hmore (slot : List Property) (hslot : ∀ p ∈ slot, p.Admitted t) :
      Gives I (do
        if ← consume ',' then return slot ++ (← Parsing.propertiesRest budget) else return slot)
        fun ps => ∀ p ∈ ps, p.Admitted t := by
    refine .bind (hI.gives_consume (by decide)) fun b _ => ?_
    split
    · exact .bind ih.places fun ps hps => .pure (List.forall_mem_append.2 ⟨hslot, hps⟩)
    · exact .pure hslot
  refine .bind hI.gives_peek? fun next _ => ?_
  dsimp only
  split
  · exact .bind (.pure (List.forall_mem_nil _)) hmore
  · exact .bind (.bind ih.property fun p hp => .pure (List.forall_mem_singleton.2 hp)) hmore

theorem property_succ (hI : Keeping t I) (ih : ParsesAdmitted t I budget) :
    Gives I (Parsing.property (budget + 1)) (Property.Admitted t) := by
  rw [Parsing.property]
  have hvalue {make : Expr → Property} (hmake : ∀ e, e.Admitted t → (make e).Admitted t) :
      Gives I (do return make (← Parsing.assignment budget)) (Property.Admitted t) :=
    .bind ih.assignment fun value hvalue => .pure (hmake value hvalue)
  refine .bind (hI.gives_consume (by decide)) fun b _ => ?_
  split
  · exact .bind ih.assignment fun key hkey => .bind (hI.gives_expect (by decide)) fun _ _ =>
      .bind (hI.gives_expect (by decide)) fun _ _ => hvalue fun value hvalue => ⟨trivial, hkey, hvalue⟩
  refine .bind (hI.gives_ask hI.nextToken? Lexer.gives_nextToken?) fun answer hanswer => ?_
  split
  · exact gives_unexpected _
  rename_i token
  obtain ⟨start, rest, hl⟩ := hanswer token rfl
  split
  · rename_i hkind
    exact .bind (hI.gives_expect (by decide)) fun _ _ => hvalue fun value hvalue =>
      ⟨isToken_of_lexeme? hl hkind, hvalue⟩
  · rename_i hkind
    exact .bind (hI.gives_expect (by decide)) fun _ _ => hvalue fun value hvalue =>
      ⟨isToken_of_lexeme? hl hkind, hvalue⟩
  · split
    · exact .bind (hI.gives_expect (by decide)) fun _ _ => hvalue fun value hvalue => ⟨trivial, hvalue⟩
    · rename_i hname
      refine .bind (hI.gives_consume (by decide)) fun b _ => ?_
      split
      · exact hvalue fun value hvalue => ⟨trivial, hvalue⟩
      · exact .pure ⟨trivial, Bool.eq_false_iff.2 hname, trivial⟩
  · exact .fail fun _ => ⟨_, rfl⟩

/-- Every function of the parser returns trees that its table admits. -/
theorem all (ht : t = .ofGroups definitions) (hI : Keeping t I) (budget : Nat) : ParsesAdmitted t I budget := by
  induction budget with
  | zero =>
    constructor
    all_goals intros
    all_goals first
      | rw [Parsing.expr] | rw [Parsing.ternaries] | rw [Parsing.assignment] | rw [Parsing.ternary]
      | rw [Parsing.chain] | rw [Parsing.chainRest] | rw [Parsing.unary] | rw [Parsing.postfixes]
      | rw [Parsing.primary] | rw [Parsing.elements] | rw [Parsing.elementsRest]
      | rw [Parsing.properties] | rw [Parsing.propertiesRest] | rw [Parsing.property]
    all_goals exact gives_tooDeep
  | succ budget ih =>
    exact
      { expr := ih.expr_succ hI
        items := ih.items_succ hI
        assignment := ih.assignment_succ ht hI
        ternary := ih.ternary_succ hI
        chain := ih.chain_succ
        chainRest := fun level tighter _ => ih.chainRest_succ ht hI level tighter
        unary := ih.unary_succ ht hI
        postfixes := fun _ => ih.postfixes_succ hI
        primary := ih.primary_succ hI
        elements := ih.elements_succ hI
        slots := ih.slots_succ hI
        properties := ih.properties_succ hI
        places := ih.places_succ hI
        property := ih.property_succ hI }

end ParsesAdmitted

/-- A source that is parsed gives a tree that the table admits, and what a parser keeps holds where the lexer finds
that nothing remains. -/
theorem Expr.of_parse {source : String} {definitions : List (String × List String)} {I : Lexer → Prop} {e : Expr}
    (hI : Parsing.Keeping (.ofGroups definitions) I) (hstart : I (.ofSource source (.ofGroups definitions)))
    (h : Expr.parse source (.ofGroups definitions) = .ok e) :
    e.Admitted (.ofGroups definitions) ∧
      ∃ l l' : Lexer, I l ∧ Lexer.hasRemaining l = (.ok false, l') := by
  rw [Expr.parse] at h
  cases hrun : (Parsing.whole (parseBudget source)).run (.ofSource source (.ofGroups definitions)) with
  | error =>
    rw [hrun] at h
    cases h
  | ok answer =>
    rw [hrun] at h
    obtain rfl : answer.1 = e := Except.ok.inj h
    obtain ⟨e, l, hexpr, hrest⟩ := Parsing.bind_eq_ok.1 hrun
    obtain ⟨remains, l', hremains, hend⟩ := Parsing.bind_eq_ok.1 hrest
    obtain ⟨hl, he⟩ := (ParsesAdmitted.all rfl hI _).expr _ l e hstart hexpr
    cases remains with
    | true => cases hend
    | false =>
      obtain ⟨rfl, -⟩ := Prod.mk.inj (Except.ok.inj hend)
      exact ⟨he, l, l', hl, Parsing.ask_eq_ok.1 hremains⟩

/-- The tree of every source is one that the table admits. -/
theorem Expr.admitted_of_parse {source : String} {definitions : List (String × List String)} {e : Expr}
    (h : Expr.parse source (.ofGroups definitions) = .ok e) : e.Admitted (.ofGroups definitions) :=
  (of_parse (Parsing.keeping_table rfl) rfl h).1

end LatentExpr
