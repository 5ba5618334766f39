import LatentExpr.Proofs.Grammar.Completeness

/-!
How an expression may be written: `Bare` describes the tokens of an expression by its own form, and
`Written` puts any number of parentheses around them, at least one pair where the place asks for it.
Whatever the grammar derives is written so; unlike a derivation, the description follows the tree.
-/
namespace LatentExpr

/-! ### Precedences of levels -/

namespace Level

def precedence : Level → Nat
  | .logical .or => 3
  | .logical .and => 4
  | .binary .equality => 5
  | .binary .relational => 6
  | .binary .additive => 7
  | .binary .multiplicative => 8

variable {level : Level} {tighter : List Level} {symbol : String} {left right : Expr}

theorem precedence_join : (level.join symbol left right).precedence = level.precedence := by
  cases level with
  | logical op => cases op <;> rfl
  | binary level => cases level <;> rfl

theorem precedence_lt (level : Level) : level.precedence < 10 := by
  cases level with
  | logical op => cases op <;> decide
  | binary level => cases level <;> decide

/-- The levels are in the order of their precedences. -/
theorem precedence_eq (h : level :: tighter <:+ Level.all) :
    level.precedence = 8 - tighter.length ∧ tighter.length ≤ 5 := by
  have hall : ∀ levels ∈ Level.all.tails, ∀ level ∈ levels.head?,
      level.precedence = 8 - levels.tail.length ∧ levels.tail.length ≤ 5 := by decide
  exact hall _ ((List.mem_tails _ _).2 h) level rfl

end Level

theorem BinaryOp.symbol_ofSymbol (level : BinaryLevel) (s : String) :
    (BinaryOp.ofSymbol level s).symbol = s := by
  unfold ofSymbol
  cases h : (builtIn level).find? fun op => op.symbol = s with
  | none => rfl
  | some op => simpa using List.find?_some h

theorem UnaryOp.symbol_ofSymbol (s : String) : (UnaryOp.ofSymbol s).symbol = s := by
  unfold ofSymbol
  cases h : [plus, neg, not].find? fun op => op.symbol = s with
  | none => rfl
  | some op => simpa using List.find?_some h

/-! ### Writings -/

def opens (n : Nat) : List Piece := List.replicate n (.punct '(')

def closes (n : Nat) : List Piece := List.replicate n (.punct ')')

/-- Tokens of an expression with parentheses around them, which can be left out where the precedence is at
least `least`. The flag says whether what is written goes on over a comma. -/
def Wraps (bare : Bool → List Piece → Prop) (precedence least : Nat) (o : Bool) (T : List Piece) :
    Prop :=
  (least ≤ precedence ∧ bare o T) ∨
    (o = false ∧ ∃ n o' V, T = opens (n + 1) ++ (V ++ closes (n + 1)) ∧ bare o' V)

/-- Tokens of the items of a list, of which `rest` describes those behind a comma. -/
def Items (rest : List Piece → Prop) (es : List Expr) (T : List Piece) : Prop :=
  (es = [] ∧ T = []) ∨ rest (.punct ',' :: T)

mutual

/-- The tokens of an expression without parentheses around it. -/
def Expr.Bare : Expr → Bool → List Piece → Prop
  | .assign target value, o, T => ∃ V W, T = V ++ .symbol "=" :: W ∧
    Wraps target.Bare target.precedence 2 false V ∧ Wraps value.Bare value.precedence 1 o W
  | .comma [], _, _ => False
  | .comma (first :: rest), o, T => o = false ∧ rest ≠ [] ∧ ∃ V W, T = V ++ W ∧
    Wraps first.Bare first.precedence 1 false V ∧ BareRest 2 rest W
  | .ternary test consequent alternate, o, T => o = true ∧ ∃ V W Z,
    T = V ++ .punct '?' :: (W ++ .punct ':' :: Z) ∧ Wraps test.Bare test.precedence 3 false V ∧
      (∃ o', Wraps consequent.Bare consequent.precedence 0 o' W) ∧
        ∃ o', Wraps alternate.Bare alternate.precedence 0 o' Z
  | .logical op left right, o, T =>
    let precedence := (Expr.logical op left right).precedence
    o = false ∧ ∃ V W, T = V ++ .symbol op.symbol :: W ∧
      Wraps left.Bare left.precedence precedence false V ∧
        Wraps right.Bare right.precedence (precedence + 1) false W
  | .binary level op left right, o, T =>
    let precedence := (Expr.binary level op left right).precedence
    o = false ∧ op.symbol ∈ level.group.builtIn ∧ ∃ V W, T = V ++ .symbol op.symbol :: W ∧
      Wraps left.Bare left.precedence precedence false V ∧
        Wraps right.Bare right.precedence (precedence + 1) false W
  | .unary op operand, o, T => o = false ∧ op.symbol ∈ OperatorGroup.unary.builtIn ∧
    ∃ W, T = .symbol op.symbol :: W ∧ Wraps operand.Bare operand.precedence 9 false W
  | .identifier name, o, T => o = false ∧ T = [.identifier name]
  | .constant kind text, o, T => o = false ∧ T = [⟨kind.token, text⟩]
  | .literal value, o, T => o = false ∧ T = [.identifier value.keyword]
  | .receiver, o, T => o = false ∧ T = [.identifier "this"]
  | .call callee args, o, T => o = false ∧ ∃ V W, T = V ++ .punct '(' :: (W ++ [.punct ')']) ∧
    Wraps callee.Bare callee.precedence 10 false V ∧ Items (BareRest 1 args) args W
  | .member object name, o, T => o = false ∧ ∃ V, T = V ++ [.punct '.', .identifier name] ∧
    Wraps object.Bare object.precedence 10 false V
  | .index object key, o, T => o = false ∧ ∃ V W, T = V ++ .punct '[' :: (W ++ [.punct ']']) ∧
    Wraps object.Bare object.precedence 10 false V ∧ ∃ o', Wraps key.Bare key.precedence 0 o' W
  | .array elements, o, T => o = false ∧ ∃ W, T = .punct '[' :: (W ++ [.punct ']']) ∧
    Items (BareRest 1 elements) elements W
  | .object properties, o, T => o = false ∧ ∃ W, T = .punct '\x7b' :: (W ++ [.punct '\x7d']) ∧
    BareProperties properties W

/-- The tokens of items that follow another one. An item that is left out is undefined. -/
def BareRest (least : Nat) : List Expr → List Piece → Prop
  | [], T => T = []
  | item :: rest, T => ∃ o V W, T = .punct ',' :: (V ++ W) ∧
    (Wraps item.Bare item.precedence least o V ∨ (V = [] ∧ item = .literal .undefined ∧ o = false)) ∧
      (rest ≠ [] → o = false) ∧ BareRest least rest W

def Property.Bare : Property → Bool → List Piece → Prop
  | .named name value, o, T =>
    (∃ W, T = .identifier name :: .punct ':' :: W ∧ Wraps value.Bare value.precedence 1 o W) ∨
      (value.isNamed name = true ∧ o = false ∧ T = [.identifier name])
  | .constant kind text value, o, T => ∃ W, T = ⟨kind.token, text⟩ :: .punct ':' :: W ∧
    Wraps value.Bare value.precedence 1 o W
  | .computed key value, o, T => ∃ V W, T = .punct '[' :: (V ++ .punct ']' :: .punct ':' :: W) ∧
    (∃ o', Wraps key.Bare key.precedence 1 o' V) ∧ Wraps value.Bare value.precedence 1 o W

/-- The tokens of the properties of an object literal, with any number of empty places. -/
def BareProperties : List Property → List Piece → Prop
  | [], T => ∃ n, T = List.replicate n (.punct ',')
  | p :: rest, T => ∃ n o V W, T = List.replicate n (.punct ',') ++ (V ++ W) ∧ p.Bare o V ∧
    ((W = [] ∧ rest = []) ∨ ∃ Z, W = .punct ',' :: Z ∧ o = false ∧ BareProperties rest Z)

end

/-- The tokens of an expression in a place that asks for a precedence of at least `least`. -/
def Expr.Written (e : Expr) (least : Nat) (o : Bool) (T : List Piece) : Prop :=
  Wraps e.Bare e.precedence least o T

namespace Expr.Written

variable {e left right : Expr} {least least' : Nat} {o : Bool} {T V W : List Piece}

theorem of_bare (h : e.Bare o T) (hle : least ≤ e.precedence) : e.Written least o T := .inl ⟨hle, h⟩

theorem mono (h : e.Written least o T) (hle : least' ≤ least) : e.Written least' o T := by
  rcases h with ⟨hp, hbare⟩ | h
  · exact .inl ⟨Nat.le_trans hle hp, hbare⟩
  · exact .inr h

theorem opens_closes (n : Nat) (V : List Piece) :
    Piece.punct '(' :: (opens n ++ (V ++ closes n) ++ [.punct ')']) =
      opens (n + 1) ++ (V ++ closes (n + 1)) := by
  rw [show opens (n + 1) = .punct '(' :: opens n from List.replicate_succ,
    show closes (n + 1) = closes n ++ [.punct ')'] from List.replicate_succ']
  simp only [List.cons_append, List.append_assoc]

/-- Parentheses around what is written make it fit everywhere. -/
theorem parenthesize (h : e.Written least o T) :
    e.Written least' false (.punct '(' :: (T ++ [.punct ')'])) := by
  rcases h with ⟨-, hbare⟩ | ⟨-, n, o', V, rfl, hbare⟩
  · refine .inr ⟨rfl, 0, o, T, ?_, hbare⟩
    rw [← opens_closes]
    simp [opens, closes]
  · exact .inr ⟨rfl, n + 1, o', V, opens_closes (n + 1) V, hbare⟩

theorem join {level : Level} {symbol : String} (hs : symbol ∈ level.symbols)
    (hl : left.Written level.precedence false V) (hr : right.Written (level.precedence + 1) false W) :
    (level.join symbol left right).Written level.precedence false (V ++ .symbol symbol :: W) := by
  have hp : (level.join symbol left right).precedence = level.precedence := Level.precedence_join
  refine .of_bare ?_ (Nat.le_of_eq hp.symm)
  cases level with
  | logical op =>
    obtain rfl := List.mem_singleton.1 hs
    refine ⟨rfl, V, W, rfl, ?_, ?_⟩
    · rw [show (Expr.logical op left right).precedence = _ from hp]
      exact hl
    · rw [show (Expr.logical op left right).precedence = _ from hp]
      exact hr
  | binary level =>
    refine ⟨rfl, by rwa [BinaryOp.symbol_ofSymbol], V, W, by rw [BinaryOp.symbol_ofSymbol], ?_, ?_⟩
    · rw [show (Expr.binary level (.ofSymbol level symbol) left right).precedence = _ from hp]
      exact hl
    · rw [show (Expr.binary level (.ofSymbol level symbol) left right).precedence = _ from hp]
      exact hr

end Expr.Written

/-- How the tree of a phrase is written. -/
def Phrase.Written : Phrase → Bool → List Piece → Prop
  | .expr e, _, T => ∃ o, e.Written 0 o T
  | .items es, _, T => es ≠ [] ∧ BareRest 2 es (.punct ',' :: T)
  | .assignment e, o, T => e.Written 1 o T
  | .ternary e, o, T => e.Written 2 o T
  | .chain levels e, _, T => levels <:+ Level.all → e.Written (9 - levels.length) false T
  | .chainRest level tighter left e, _, T => level :: tighter <:+ Level.all →
    ∀ V, left.Written level.precedence false V → e.Written level.precedence false (V ++ T)
  | .unary e, _, T => e.Written 9 false T
  | .postfixes left e, _, T => ∀ V, left.Written 10 false V → e.Written 10 false (V ++ T)
  | .primary e, _, T => e.Written 10 false T
  | .elements es, _, T => Items (BareRest 1 es) es T
  | .slots es, _, T => BareRest 1 es (.punct ',' :: T)
  | .slot e, o, T => e.Written 1 o T ∨ (T = [] ∧ e = .literal .undefined ∧ o = false)
  | .properties ps, _, T | .places ps, _, T => BareProperties ps T
  | .place ps, o, T => (T = [] ∧ ps = []) ∨ ∃ p, ps = [p] ∧ p.Bare o T
  | .property p, o, T => p.Bare o T

/-- A token is the bare form of the expression that it is. -/
theorem Piece.bare_of_expr? {p : Piece} {e : Expr} (h : p.expr? = some e) :
    e.precedence = 10 ∧ e.Bare false [p] := by
  rcases expr?_cases h with ⟨rfl, rfl⟩ | ⟨value, rfl, rfl⟩ | ⟨name, -, rfl, rfl⟩ | ⟨kind, text, rfl, rfl⟩ <;>
    exact ⟨rfl, rfl, rfl⟩

/-- One more comma is one more empty place. -/
theorem BareProperties.comma {ps : List Property} {T : List Piece} (h : BareProperties ps T) :
    BareProperties ps (.punct ',' :: T) := by
  cases ps with
  | nil =>
    obtain ⟨n, rfl⟩ := h
    exact ⟨n + 1, List.replicate_succ.symm⟩
  | cons p rest =>
    obtain ⟨n, o, V, W, rfl, hp, hrest⟩ := h
    exact ⟨n + 1, o, V, W, by rw [List.replicate_succ]; rfl, hp, hrest⟩

/-- What is derived is written so. -/
theorem Derives.written {ph : Phrase} {o : Bool} {T : List Piece} (h : Derives true ph o T) :
    ph.Written o T := by
  induction h with
  | single _ ih => exact ⟨_, ih.mono (Nat.zero_le _)⟩
  | sequence _ ho _ ih ihs =>
    obtain rfl := ho rfl
    exact ⟨false, .of_bare ⟨rfl, ihs.1, _, _, rfl, ih, ihs.2⟩ (Nat.zero_le _)⟩
  | lastItem _ ih =>
    exact ⟨List.cons_ne_nil _ _, _, _, [], by rw [List.append_nil], .inl ih, nofun, rfl⟩
  | moreItems _ ho _ ih ihs =>
    obtain rfl := ho rfl
    exact ⟨List.cons_ne_nil _ _, false, _, _, rfl, .inl ih, fun _ => rfl, ihs.2⟩
  | unassigned _ ih => exact ih.mono (by decide)
  | assigned h hw _ ih ihv =>
    obtain rfl := hungry_eq_false_of_isWritable h hw
    exact .of_bare ⟨_, _, rfl, ih, ihv⟩ (Nat.le_refl _)
  | untested _ ih => exact (ih (List.suffix_refl _)).mono (by decide)
  | tested _ _ _ ih ihc iha =>
    exact .of_bare ⟨rfl, _, _, _, rfl, ih (List.suffix_refl _), ihc, iha⟩ (Nat.le_refl _)
  | operand _ ih => exact fun _ => ih
  | level _ _ ih ihr =>
    intro hsuffix
    obtain ⟨hp, hle⟩ := Level.precedence_eq hsuffix
    have hleft := ih ((List.suffix_cons _ _).trans hsuffix)
    have hwhole := ihr hsuffix _ (hleft.mono (by omega))
    exact hwhole.mono (by simp only [List.length_cons]; omega)
  | restDone =>
    intro _ V hleft
    rwa [List.append_nil]
  | restMore hs _ _ ih ihr =>
    intro hsuffix V hleft
    obtain ⟨hp, hle⟩ := Level.precedence_eq hsuffix
    have hright := ih ((List.suffix_cons _ _).trans hsuffix)
    have hjoin := hleft.join hs (hright.mono (by omega))
    simpa only [List.append_assoc, List.cons_append] using ihr hsuffix _ hjoin
  | signed hs _ ih =>
    refine .of_bare ⟨rfl, ?_, _, ?_, ih⟩ (Nat.le_refl _)
    · rwa [UnaryOp.symbol_ofSymbol]
    · rw [UnaryOp.symbol_ofSymbol]
  | unsigned _ _ ih ihp => exact (ihp _ ih).mono (by decide)
  | postfixesDone =>
    intro V hleft
    rwa [List.append_nil]
  | called _ _ ih ihp =>
    intro V hleft
    have hcall := ihp _ (.of_bare ⟨rfl, V, _, rfl, hleft, ih⟩ (Nat.le_refl _))
    simpa only [List.append_assoc, List.cons_append, List.nil_append] using hcall
  | indexed _ _ ih ihp =>
    intro V hleft
    have hindex := ihp _ (.of_bare ⟨rfl, V, _, rfl, hleft, ih⟩ (Nat.le_refl _))
    simpa only [List.append_assoc, List.cons_append, List.nil_append] using hindex
  | selected _ _ ihp =>
    intro V hleft
    have hmember := ihp _ (.of_bare ⟨rfl, V, rfl, hleft⟩ (Nat.le_refl _))
    simpa only [List.append_assoc, List.cons_append, List.nil_append] using hmember
  | group _ ih =>
    obtain ⟨_, h⟩ := ih
    exact h.parenthesize
  | array _ ih => exact .of_bare ⟨rfl, _, rfl, ih⟩ (Nat.le_refl _)
  | object _ ih => exact .of_bare ⟨rfl, _, rfl, ih⟩ (Nat.le_refl _)
  | token h =>
    obtain ⟨hp, hbare⟩ := Piece.bare_of_expr? h
    exact .of_bare hbare (Nat.le_of_eq hp.symm)
  | noElements => exact .inl ⟨rfl, rfl⟩
  | someElements _ _ ih => exact .inr ih
  | lastSlot _ ih => exact ⟨_, _, [], by rw [List.append_nil], ih, nofun, rfl⟩
  | moreSlots _ ho _ ih ihs =>
    obtain rfl := ho rfl
    exact ⟨false, _, _, rfl, ih, fun _ => rfl, ihs⟩
  | emptySlot => exact .inr ⟨rfl, rfl, rfl⟩
  | filledSlot _ ih => exact .inl ih
  | noProperties => exact ⟨0, rfl⟩
  | someProperties _ ih => exact ih
  | lastPlace _ ih =>
    rcases ih with ⟨rfl, rfl⟩ | ⟨p, rfl, hp⟩
    · exact ⟨0, rfl⟩
    · exact ⟨0, _, _, [], by rw [List.append_nil]; rfl, hp, .inl ⟨rfl, rfl⟩⟩
  | morePlaces _ ho _ ih ihs =>
    obtain rfl := ho rfl
    rcases ih with ⟨rfl, rfl⟩ | ⟨p, rfl, hp⟩
    · exact ihs.comma
    · exact ⟨0, _, _, _, rfl, hp, .inr ⟨_, rfl, rfl, ihs⟩⟩
  | emptyPlace => exact .inl ⟨rfl, rfl⟩
  | filledPlace _ ih => exact .inr ⟨_, rfl, ih⟩
  | computed _ _ ihk ihv => exact ⟨_, _, rfl, ⟨_, ihk⟩, ihv⟩
  | constant _ ih => exact ⟨_, rfl, ih⟩
  | named _ ih => exact .inl ⟨_, rfl, ih⟩
  | shorthand => exact .inr ⟨by simp [Expr.isNamed], rfl, rfl⟩

end LatentExpr
