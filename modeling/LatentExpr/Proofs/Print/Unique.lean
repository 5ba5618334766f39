import LatentExpr.Proofs.Expr.Forms
import LatentExpr.Proofs.Print.Pieces
import LatentExpr.Proofs.Print.Written

/-!
An expression that is written as it is printed reprints. The comparison goes through the tokens from left
to right: two texts that begin with parentheses before the same expression agree in their number, in
what follows the expression, and in whether it goes on over a comma.
-/
namespace LatentExpr

/-! ### Tokens behind an expression -/

/-- Nothing but a symbol comes next. -/
def Ends (X : List Piece) : Prop := ∀ p ∈ X.head?, p.kind = .symbol

/-- No parenthesis is closed next. -/
def Unclosed (X : List Piece) : Prop := X.head? ≠ some (.punct ')')

variable {n m : Nat} {p q : Piece} {X Y : List Piece}

theorem Ends.cons (hp : p.kind = .symbol) : Ends (p :: X) := by
  intro q hq
  obtain rfl := Option.some.inj hq
  exact hp

theorem Ends.nil : Ends [] := fun _ h => nomatch h

theorem Unclosed.cons (hp : p ≠ .punct ')') : Unclosed (p :: X) := fun h => hp (Option.some.inj h)

theorem Ends.closes (hX : Ends X) : Ends (closes n ++ X) := by
  cases n with
  | zero => exact hX
  | succ n => exact .cons rfl

/-- Opening parentheses before another token are counted. -/
theorem opens_cons_inj (hp : p ≠ .punct '(') (hq : q ≠ .punct '(')
    (h : opens n ++ p :: X = opens m ++ q :: Y) : n = m ∧ p = q ∧ X = Y := by
  induction n generalizing m with
  | zero =>
    cases m with
    | zero => exact ⟨rfl, List.cons.inj h⟩
    | succ m => exact absurd (List.cons.inj h).1 hp
  | succ n ih =>
    cases m with
    | zero => exact absurd (List.cons.inj h).1.symm hq
    | succ m =>
      obtain ⟨rfl, heq⟩ := ih (List.cons.inj h).2
      exact ⟨rfl, heq⟩

/-- Closing parentheses before another token are counted. -/
theorem closes_inj (hX : Unclosed X) (hY : Unclosed Y) (h : closes n ++ X = closes m ++ Y) :
    n = m ∧ X = Y := by
  induction n generalizing m with
  | zero =>
    cases m with
    | zero => exact ⟨rfl, h⟩
    | succ m => exact absurd (congrArg List.head? h) hX
  | succ n ih =>
    cases m with
    | zero => exact absurd (congrArg List.head? h.symm) hY
    | succ m =>
      obtain ⟨rfl, heq⟩ := ih (List.cons.inj h).2
      exact ⟨rfl, heq⟩

/-! ### Parentheses -/

/-- Before parentheses or none, whatever is written for the expression reads as it is printed. -/
def Expr.Unique (e : Expr) : Prop :=
  ∀ (n m : Nat) (o : Bool) (V X Y : List Piece), e.Bare o V → Ends X →
    opens n ++ (V ++ X) = opens m ++ (e.pieces ++ Y) →
      n = m ∧ X = Y ∧ o = e.isOpen ∧ e.reprints = true

namespace Expr

variable {e left right : Expr} {least least' : Nat} {o : Bool} {T V W : List Piece}

/-- The parentheses of what is written, one by one. -/
theorem Written.parentheses (h : e.Written least o T) :
    ∃ k o' V, T = opens k ++ (V ++ closes k) ∧ e.Bare o' V ∧ (k = 0 → o = o' ∧ least ≤ e.precedence) ∧
      (0 < k → o = false) := by
  rcases h with ⟨hle, hbare⟩ | ⟨rfl, k, o', V, rfl, hbare⟩
  · exact ⟨0, o, T, by simp [opens, closes], hbare, fun _ => ⟨rfl, hle⟩, fun h => absurd h (by decide)⟩
  · exact ⟨k + 1, o', V, rfl, hbare, fun h => absurd h (Nat.succ_ne_zero k), fun _ => rfl⟩

theorem enclosePieces_eq (least : Nat) (e : Expr) (ps : List Piece) :
    ∃ k, e.enclosePieces least ps = opens k ++ (ps ++ closes k) ∧ (k = 0 ↔ least ≤ e.precedence) := by
  unfold enclosePieces
  by_cases h : e.precedence < least
  · rw [if_pos h]
    exact ⟨1, rfl, by omega⟩
  · rw [if_neg h]
    exact ⟨0, by simp [opens, closes], by omega⟩

theorem opens_add (n k : Nat) (T : List Piece) : opens n ++ (opens k ++ T) = opens (n + k) ++ T := by
  rw [← List.append_assoc, opens, opens, List.replicate_append_replicate, opens]

/-- The number of parentheses is that of the printer, if those before agree or none is closed behind. -/
theorem Unique.written (hu : e.Unique) (h : e.Written least o T) (hX : Ends X)
    (heq : opens n ++ (T ++ X) = opens m ++ (e.enclosePieces least' e.pieces ++ Y))
    (hend : n = m ∨ Unclosed X ∧ Unclosed Y) :
    n = m ∧ X = Y ∧ o = (e.isOpen && decide (least' ≤ e.precedence)) ∧ e.reprints = true ∧
      (least ≤ e.precedence ∨ e.precedence < least') := by
  obtain ⟨k, o', V, rfl, hbare, hnone, hsome⟩ := h.parentheses
  obtain ⟨j, hj, hj0⟩ := enclosePieces_eq least' e e.pieces
  rw [hj] at heq
  simp only [List.append_assoc, opens_add] at heq
  obtain ⟨hopens, hcloses, rfl, hreprints⟩ := hu _ _ _ _ _ _ hbare hX.closes heq
  have hkj : n = m ∧ k = j ∧ X = Y := by
    rcases hend with rfl | ⟨hX, hY⟩
    · obtain rfl : k = j := by omega
      exact ⟨rfl, rfl, List.append_cancel_left hcloses⟩
    · obtain ⟨rfl, rfl⟩ := closes_inj hX hY hcloses
      exact ⟨by omega, rfl, rfl⟩
  obtain ⟨rfl, rfl, rfl⟩ := hkj
  refine ⟨rfl, rfl, ?_, hreprints, ?_⟩
  · by_cases hk : k = 0
    · rw [(hnone hk).1, decide_eq_true (hj0.1 hk), Bool.and_true]
    · rw [hsome (by omega), decide_eq_false (fun hle => hk (hj0.2 hle)), Bool.and_false]
  · by_cases hk : k = 0
    · exact .inl (hnone hk).2
    · exact .inr (by have := mt hj0.2 hk; omega)

/-- What begins where the printed form begins. -/
theorem Unique.alone (hu : e.Unique) (h : e.Written least o T) (hX : Ends X)
    (heq : T ++ X = e.enclosePieces least' e.pieces ++ Y) :
    X = Y ∧ o = (e.isOpen && decide (least' ≤ e.precedence)) ∧ e.reprints = true ∧
      (least ≤ e.precedence ∨ e.precedence < least') :=
  (hu.written (n := 0) (m := 0) h hX heq (.inl rfl)).2

/-- What is printed without parentheses. -/
theorem Unique.unenclosed (hu : e.Unique) (h : e.Written least o T) (hX : Ends X)
    (heq : T ++ X = e.pieces ++ Y) : X = Y ∧ e.reprints = true ∧ least ≤ e.precedence := by
  have heq : T ++ X = e.enclosePieces 0 e.pieces ++ Y := heq
  obtain ⟨hXY, -, hreprints, hle⟩ := hu.alone h hX heq
  exact ⟨hXY, hreprints, by omega⟩

/-- What begins behind any parentheses, and has the token `p` behind it. -/
theorem Unique.before (hu : e.Unique) (h : e.Written least false T) (hkind : p.kind = .symbol)
    (hp : p ≠ .punct ')')
    (heq : opens n ++ (T ++ p :: X) = opens m ++ (e.enclosePieces least e.pieces ++ p :: Y)) :
    n = m ∧ X = Y ∧ e.reprints = true := by
  obtain ⟨hnm, hXY, -, hreprints, -⟩ := hu.written h (.cons hkind) heq (.inr ⟨.cons hp, .cons hp⟩)
  exact ⟨hnm, (List.cons.inj hXY).2, hreprints⟩

/-- Two operands with an operator between them. -/
theorem Unique.operation {least₁ least₂ : Nat} {symbol : String} (hl : left.Unique) (hr : right.Unique)
    (hs : symbol ≠ ")") (hV : left.Written least₁ false V) (hW : right.Written least₂ o W)
    (hX : Ends X)
    (heq : opens n ++ ((V ++ .symbol symbol :: W) ++ X) = opens m ++
      ((left.enclosePieces least₁ left.pieces ++
        .symbol symbol :: right.enclosePieces least₂ right.pieces) ++ Y)) :
    n = m ∧ X = Y ∧ o = (right.isOpen && decide (least₂ ≤ right.precedence)) ∧
      (left.reprints && right.reprints) = true := by
  simp only [List.append_assoc, List.cons_append] at heq
  obtain ⟨rfl, heq, hleft⟩ := hl.before hV rfl (fun h => hs (congrArg Piece.text h)) heq
  obtain ⟨rfl, ho, hright, -⟩ := hr.alone hW hX heq
  exact ⟨rfl, rfl, ho, by rw [hleft, hright]; rfl⟩

/-! ### One form after another -/

theorem Unique.assign {target value : Expr} (ht : target.Unique) (hv : value.Unique) :
    (Expr.assign target value).Unique := by
  rintro n m o _ X Y ⟨V, W, rfl, hV, hW⟩ hX heq
  obtain ⟨hnm, hXY, rfl, hreprints⟩ := ht.operation hv (by decide) hV hW hX heq
  exact ⟨hnm, hXY, value.isOpen_and_one_le, hreprints⟩

theorem Unique.ternary {test consequent alternate : Expr} (ht : test.Unique)
    (hc : consequent.Unique) (ha : alternate.Unique) :
    (Expr.ternary test consequent alternate).Unique := by
  rintro n m o _ X Y ⟨rfl, V, W, Z, rfl, hV, ⟨_, hW⟩, ⟨_, hZ⟩⟩ hX heq
  simp only [Expr.pieces, List.append_assoc, List.cons_append] at heq
  obtain ⟨hnm, heq, htest⟩ := ht.before hV rfl (by decide) heq
  obtain ⟨heq, hconsequent, -⟩ := hc.unenclosed hW (.cons rfl) heq
  obtain ⟨hXY, -, halternate, -⟩ := ha.alone hZ hX (List.cons.inj heq).2
  refine ⟨hnm, hXY, rfl, ?_⟩
  simp only [Expr.reprints, htest, hconsequent, halternate, Bool.and_self]

theorem Unique.logical {op : LogicalOp} (hl : left.Unique) (hr : right.Unique) :
    (Expr.logical op left right).Unique := by
  rintro n m o _ X Y ⟨rfl, V, W, rfl, hV, hW⟩ hX heq
  have hs : op.symbol ≠ ")" := by cases op <;> decide
  obtain ⟨hnm, hXY, -, hreprints⟩ := hl.operation hr hs hV hW hX heq
  exact ⟨hnm, hXY, rfl, hreprints⟩

theorem Unique.binary {level : BinaryLevel} {op : BinaryOp} (hl : left.Unique) (hr : right.Unique) :
    (Expr.binary level op left right).Unique := by
  rintro n m o _ X Y ⟨rfl, hop, V, W, rfl, hV, hW⟩ hX heq
  have hs : op.symbol ≠ ")" := by
    intro h
    rw [h] at hop
    cases level <;> exact absurd hop (by decide)
  obtain ⟨hnm, hXY, -, hreprints⟩ := hl.operation hr hs hV hW hX heq
  exact ⟨hnm, hXY, rfl, hreprints⟩

theorem Unique.unary {op : UnaryOp} {operand : Expr} (hu : operand.Unique) :
    (Expr.unary op operand).Unique := by
  rintro n m o _ X Y ⟨rfl, hop, W, rfl, hW⟩ hX heq
  have hs : Piece.symbol op.symbol ≠ .punct '(' := by
    intro h
    rw [show op.symbol = "(" from congrArg Piece.text h] at hop
    exact absurd hop (by decide)
  obtain ⟨hnm, -, heq⟩ := opens_cons_inj hs hs heq
  obtain ⟨hXY, -, hreprints, -⟩ := hu.alone hW hX heq
  exact ⟨hnm, hXY, rfl, hreprints⟩

/-- An expression of one token. -/
theorem Unique.token (hp : e.pieces = [p]) (hne : p ≠ .punct '(') (hreprints : e.reprints = true)
    (hbare : ∀ o V, e.Bare o V → o = e.isOpen ∧ V = [p]) : e.Unique := by
  intro n m o V X Y h _ heq
  obtain ⟨ho, rfl⟩ := hbare o V h
  rw [hp] at heq
  obtain ⟨hnm, -, hXY⟩ := opens_cons_inj hne hne heq
  exact ⟨hnm, hXY, ho, hreprints⟩

theorem Unique.index {object key : Expr} (ho : object.Unique) (hk : key.Unique) :
    (Expr.index object key).Unique := by
  rintro n m o _ X Y ⟨rfl, V, W, rfl, hV, ⟨_, hW⟩⟩ hX heq
  simp only [Expr.pieces, List.append_assoc, List.cons_append] at heq
  obtain ⟨hnm, heq, hobject⟩ := ho.before hV rfl (by decide) heq
  obtain ⟨heq, hkey, -⟩ := hk.unenclosed hW (.cons rfl) heq
  refine ⟨hnm, (List.cons.inj heq).2, rfl, ?_⟩
  simp only [Expr.reprints, hobject, hkey, Bool.and_self]

/-- The number in front of a member is not the one that is printed there. -/
theorem Written.ne_glued {text name : String} (h : (Expr.constant .number text).Written least o T) :
    opens n ++ (T ++ X) ≠ opens m ++ (Lexeme.glued text name ++ Y) := by
  obtain ⟨k, _, V, rfl, ⟨rfl, rfl⟩, -⟩ := h.parentheses
  intro heq
  rw [List.append_assoc, opens_add, Lexeme.glued] at heq
  obtain ⟨-, heq, -⟩ := opens_cons_inj (p := .number text) (q := .number _) nofun nofun heq
  have hlength := congrArg String.length (congrArg Piece.text heq)
  simp only [Piece.text_number, String.length_append] at hlength
  have : ".".length = 1 := rfl
  omega

/-- A member of a whole number is printed with another number in front. -/
theorem Unique.member {object : Expr} {name : String} (ho : object.Unique) :
    (Expr.member object name).Unique := by
  rintro n m o _ X Y ⟨rfl, V, rfl, hV⟩ hX heq
  simp only [Expr.pieces, List.append_assoc, List.cons_append, List.nil_append] at heq
  by_cases hwhole : object.isWhole = true
  · obtain ⟨text, rfl, htext⟩ := isWhole_iff.1 hwhole
    rw [memberPieces, if_pos htext] at heq
    exact absurd heq (Written.ne_glued hV)
  · rw [memberPieces_of_not_isWhole hwhole] at heq
    simp only [List.append_assoc, List.cons_append, List.nil_append] at heq
    obtain ⟨hnm, heq, hobject⟩ := ho.before hV rfl (by decide) heq
    refine ⟨hnm, (List.cons.inj heq).2, rfl, ?_⟩
    simp [Expr.reprints, hobject, hwhole]

theorem isHungry_eq_false {followed : Bool}
    (h : followed = true → (e.isOpen && decide (least ≤ e.precedence)) = false) :
    e.isHungry least followed = false := by
  cases followed with
  | false => rfl
  | true => rw [isHungry, Bool.and_assoc, h rfl, Bool.and_false]

end Expr

/-! ### Lists -/

/-- The items of a list behind a comma read as they are printed. -/
def UniqueRest (es : List Expr) : Prop :=
  ∀ (least : Nat) (W X Y : List Piece), least ≤ 10 → BareRest least es W → Ends X →
    W ++ X = restPieces least es ++ Y → X = Y ∧ reprintsItems least es = true

theorem BareRest.ends {least : Nat} {es : List Expr} {W : List Piece} (h : BareRest least es W)
    (hX : Ends X) : Ends (W ++ X) := by
  cases es with
  | nil =>
    obtain rfl := h
    exact hX
  | cons =>
    obtain ⟨_, _, _, rfl, -⟩ := h
    exact .cons rfl

/-- An item that is left out is printed as undefined. -/
theorem UniqueRest.cons {e : Expr} {es : List Expr} (hu : e.Unique) (hr : UniqueRest es) :
    UniqueRest (e :: es) := by
  rintro least _ X Y hle ⟨o, V, W, rfl, hitem, hlast, hrest⟩ hX heq
  simp only [restPieces, List.append_assoc, List.cons_append] at heq
  have heq := (List.cons.inj heq).2
  rcases hitem with hV | ⟨rfl, rfl, rfl⟩
  · obtain ⟨heq, rfl, hreprints, -⟩ := hu.alone hV (hrest.ends hX) heq
    obtain ⟨hXY, hitems⟩ := hr least W X Y hle hrest hX heq
    have hhungry : e.isHungry least (!es.isEmpty) = false :=
      Expr.isHungry_eq_false fun hfollowed => hlast (by simpa using hfollowed)
    refine ⟨hXY, ?_⟩
    simp only [reprintsItems, hreprints, hhungry, hitems, Bool.not_false, Bool.and_self]
  · have hbare (ps : List Piece) : (Expr.literal .undefined).enclosePieces least ps = ps :=
      if_neg (Nat.not_lt.2 hle)
    rw [hbare] at heq
    have hhead : (W ++ X).head? = some (.identifier "undefined") := congrArg List.head? heq
    cases hrest.ends hX _ hhead

theorem UniqueRest.of_forall {es : List Expr} (hes : ∀ e ∈ es, e.Unique) : UniqueRest es := by
  induction es with
  | nil =>
    rintro least W X Y - rfl - heq
    exact ⟨heq, rfl⟩
  | cons e es ih =>
    exact .cons (hes e List.mem_cons_self) (ih fun e he => hes e (List.mem_cons_of_mem _ he))

theorem UniqueRest.items {es : List Expr} (hr : UniqueRest es) {W : List Piece}
    (h : Items (BareRest 1 es) es W) (hX : Ends X) (heq : W ++ X = itemsPieces es ++ Y) :
    X = Y ∧ reprintsItems 1 es = true := by
  rcases h with ⟨rfl, rfl⟩ | h
  · exact ⟨heq, rfl⟩
  · refine hr 1 _ X Y (by decide) h hX ?_
    cases es with
    | nil => cases h
    | cons => exact congrArg (Piece.punct ',' :: ·) heq

namespace Expr

variable {n m : Nat}

theorem Unique.comma {items : List Expr} (hitems : ∀ e ∈ items, e.Unique) :
    (Expr.comma items).Unique := by
  intro n m o _ X Y hbare hX heq
  cases items with
  | nil => cases hbare
  | cons first rest =>
    obtain ⟨rfl, hne, V, W, rfl, hV, hW⟩ := hbare
    have hf := hitems first List.mem_cons_self
    have hr := UniqueRest.of_forall fun e he => hitems e (List.mem_cons_of_mem _ he)
    obtain ⟨second, others, rfl⟩ := List.exists_cons_of_ne_nil hne
    simp only [Expr.pieces, List.append_assoc] at heq
    have hclosed : Unclosed (W ++ X) := by
      obtain ⟨_, _, _, rfl, -⟩ := hW
      exact .cons (by decide)
    obtain ⟨hnm, heq, ho, hfirst, -⟩ :=
      hf.written hV (hW.ends hX) heq (.inr ⟨hclosed, .cons (by decide)⟩)
    obtain ⟨hXY, hitems⟩ := hr 2 W X Y (by decide) hW hX heq
    have hhungry : first.isHungry 1 (!(second :: others).isEmpty) = false :=
      isHungry_eq_false fun _ => ho.symm
    refine ⟨hnm, hXY, rfl, ?_⟩
    simp only [Expr.reprints, hfirst, hhungry, hitems, Bool.not_false, Bool.and_self]

theorem Unique.call {callee : Expr} {args : List Expr} (hc : callee.Unique)
    (ha : ∀ e ∈ args, e.Unique) :
    (Expr.call callee args).Unique := by
  rintro n m o _ X Y ⟨rfl, V, W, rfl, hV, hW⟩ hX heq
  simp only [Expr.pieces, List.append_assoc, List.cons_append] at heq
  obtain ⟨hnm, heq, hcallee⟩ := hc.before hV rfl (by decide) heq
  obtain ⟨heq, hargs⟩ := (UniqueRest.of_forall ha).items hW (.cons rfl) heq
  refine ⟨hnm, (List.cons.inj heq).2, rfl, ?_⟩
  simp only [Expr.reprints, hcallee, hargs, Bool.and_self]

theorem Unique.array {elements : List Expr} (he : ∀ e ∈ elements, e.Unique) :
    (Expr.array elements).Unique := by
  rintro n m o _ X Y ⟨rfl, W, rfl, hW⟩ hX heq
  simp only [Expr.pieces, List.append_assoc, List.cons_append] at heq
  obtain ⟨hnm, -, heq⟩ := opens_cons_inj (by decide) (by decide) heq
  obtain ⟨heq, helements⟩ := (UniqueRest.of_forall he).items hW (.cons rfl) heq
  exact ⟨hnm, (List.cons.inj heq).2, rfl, helements⟩

end Expr

/-! ### Properties -/

/-- A property ends. -/
def Separates (X : List Piece) : Prop := (∃ Z, X = .punct ',' :: Z) ∨ ∃ Z, X = .punct '\x7d' :: Z

theorem Separates.comma : Separates (.punct ',' :: X) := .inl ⟨X, rfl⟩

theorem Separates.brace : Separates (.punct '\x7d' :: X) := .inr ⟨X, rfl⟩

theorem Separates.ends (hX : Separates X) : Ends X := by
  rcases hX with ⟨Z, rfl⟩ | ⟨Z, rfl⟩ <;> exact .cons rfl

theorem Separates.ne_colon (hX : Separates X) : X ≠ .punct ':' :: Y := by
  rcases hX with ⟨Z, rfl⟩ | ⟨Z, rfl⟩ <;> exact fun h => absurd (List.cons.inj h).1 (by decide)

/-- What is written for the property reads as it is printed. -/
def Property.Unique (p : Property) : Prop :=
  ∀ (followed o : Bool) (V X Y : List Piece), p.Bare o V → (followed = true → o = false) →
    Separates X → Separates Y → V ++ X = p.pieces ++ Y → X = Y ∧ p.reprints followed = true

namespace Property

variable {key value : Expr} {followed o : Bool} {V W : List Piece}

/-- The value of a property. -/
theorem unique_value (hu : value.Unique) (h : value.Written 1 o W) (ho : followed = true → o = false)
    (hX : Separates X) (heq : W ++ X = value.enclosePieces 1 value.pieces ++ Y) :
    X = Y ∧ (value.reprints && !value.isHungry 1 followed) = true := by
  obtain ⟨hXY, rfl, hreprints, -⟩ := hu.alone h hX.ends heq
  refine ⟨hXY, ?_⟩
  rw [hreprints, Expr.isHungry_eq_false ho]
  rfl

/-- A name alone is printed where the value has that name, and only there. -/
theorem Unique.named {name : String} (hu : value.Unique) : (Property.named name value).Unique := by
  rintro followed o V X Y hbare ho hX hY heq
  simp only [Property.pieces] at heq
  by_cases hnamed : value.isNamed name = true
  · rw [if_pos hnamed] at heq
    rcases hbare with ⟨W, rfl, -⟩ | ⟨-, -, rfl⟩
    · exact absurd (List.cons.inj heq).2.symm hY.ne_colon
    · refine ⟨(List.cons.inj heq).2, ?_⟩
      cases value with
      | identifier =>
        simp only [Property.reprints, Expr.reprints, Expr.isHungry, Expr.isOpen, Bool.and_false,
          Bool.false_and, Bool.not_false, Bool.and_self]
      | _ => cases hnamed
  · rw [if_neg hnamed] at heq
    rcases hbare with ⟨W, rfl, hW⟩ | ⟨hnamed', -⟩
    · exact unique_value hu hW ho hX (List.cons.inj (List.cons.inj heq).2).2
    · exact absurd hnamed' hnamed

theorem Unique.constant {kind : ConstantKind} {text : String} (hu : value.Unique) :
    (Property.constant kind text value).Unique := by
  rintro followed o _ X Y ⟨W, rfl, hW⟩ ho hX - heq
  exact unique_value hu hW ho hX (List.cons.inj (List.cons.inj heq).2).2

/-- A computed key is no sequence, since it is printed without parentheses. -/
theorem Unique.computed (hk : key.Unique) (hv : value.Unique) :
    (Property.computed key value).Unique := by
  rintro followed o _ X Y ⟨V, W, rfl, ⟨_, hV⟩, hW⟩ ho hX - heq
  simp only [Property.pieces, List.append_assoc, List.cons_append] at heq
  obtain ⟨heq, hkey, hle⟩ := hk.unenclosed hV (.cons rfl) (List.cons.inj heq).2
  obtain ⟨hXY, hvalue⟩ :=
    unique_value hv hW ho hX (List.cons.inj (List.cons.inj heq).2).2
  have hcomma : key.isComma = false := (Expr.isComma_eq_false_iff key).2 hle
  refine ⟨hXY, ?_⟩
  simp only [Property.reprints, hkey, hcomma, hvalue, Bool.not_false, Bool.and_self]

end Property

/-- The properties of an object literal read as they are printed. -/
def UniqueProperties (ps : List Property) : Prop :=
  ∀ W X Y : List Piece, BareProperties ps W →
    W ++ .punct '\x7d' :: X = propertiesPieces ps ++ .punct '\x7d' :: Y →
      X = Y ∧ reprintsProperties ps = true

theorem UniqueProperties.nil : UniqueProperties [] := by
  rintro _ X Y ⟨n, rfl⟩ heq
  cases n with
  | zero => exact ⟨(List.cons.inj heq).2, rfl⟩
  | succ n => exact absurd (List.cons.inj heq).1 (by decide)

/-- No property begins with a comma. -/
theorem Property.pieces_ne_comma (p : Property) : p.pieces ++ X ≠ .punct ',' :: Y := by
  cases p with
  | named name value =>
    rw [Property.pieces]
    split <;> (intro h; cases (List.cons.inj h).1)
  | constant kind => cases kind <;> (intro h; cases (List.cons.inj h).1)
  | computed => exact fun h => absurd (List.cons.inj h).1 (by decide)

theorem UniqueProperties.cons {p : Property} {ps : List Property} (hp : p.Unique)
    (hps : UniqueProperties ps) : UniqueProperties (p :: ps) := by
  rintro _ X Y ⟨n, o, V, W, rfl, hV, hW⟩ heq
  -- An empty place would print a comma in front.
  have hn : n = 0 := by
    by_contra hn
    obtain ⟨k, rfl⟩ := Nat.exists_eq_succ_of_ne_zero hn
    cases ps with
    | nil => exact p.pieces_ne_comma heq.symm
    | cons =>
      simp only [propertiesPieces, List.append_assoc, List.replicate_succ, List.cons_append] at heq
      exact p.pieces_ne_comma heq.symm
  subst hn
  simp only [List.replicate_zero, List.nil_append, List.append_assoc] at heq
  cases ps with
  | nil =>
    rcases hW with ⟨rfl, -⟩ | ⟨Z, rfl, rfl, -⟩
    · obtain ⟨hXY, hreprints⟩ := hp false o V _ _ hV (absurd · Bool.false_ne_true) .brace .brace heq
      refine ⟨(List.cons.inj hXY).2, ?_⟩
      simp only [reprintsProperties, List.isEmpty_nil, Bool.not_true, hreprints, Bool.and_self]
    · obtain ⟨hXY, -⟩ := hp true false V _ _ hV (fun _ => rfl) .comma .brace heq
      exact absurd (List.cons.inj hXY).1 (by decide)
  | cons q qs =>
    rw [propertiesPieces, List.append_assoc] at heq
    rcases hW with ⟨-, hnil⟩ | ⟨Z, rfl, rfl, hrest⟩
    · cases hnil
    · obtain ⟨heq, hreprints⟩ := hp true false V _ _ hV (fun _ => rfl) .comma .comma heq
      obtain ⟨hXY, hothers⟩ := hps Z X Y hrest (List.cons.inj heq).2
      refine ⟨hXY, ?_⟩
      rw [reprintsProperties, hothers, List.isEmpty_cons, Bool.not_false, hreprints]
      rfl

theorem UniqueProperties.of_forall {ps : List Property} (hps : ∀ p ∈ ps, p.Unique) :
    UniqueProperties ps := by
  induction ps with
  | nil => exact .nil
  | cons p ps ih =>
    exact .cons (hps p List.mem_cons_self) (ih fun p hp => hps p (List.mem_cons_of_mem _ hp))

theorem Expr.Unique.object {ps : List Property} (hps : ∀ p ∈ ps, p.Unique) :
    (Expr.object ps).Unique := by
  rintro n m o _ X Y ⟨rfl, W, rfl, hW⟩ hX heq
  simp only [Expr.pieces, List.append_assoc, List.cons_append, List.nil_append] at heq
  obtain ⟨hnm, -, heq⟩ := opens_cons_inj (by decide) (by decide) heq
  obtain ⟨hXY, hreprints⟩ := UniqueProperties.of_forall hps W X Y hW heq
  exact ⟨hnm, hXY, rfl, hreprints⟩

/-! ### Every expression -/

theorem unique_forms : Forms Expr.Unique Property.Unique where
  assign := .assign
  comma := .comma
  ternary := .ternary
  logical := .logical
  binary := .binary
  unary := .unary
  identifier := .token rfl nofun rfl fun _ _ h => h
  constant {kind _} := .token rfl (by cases kind <;> nofun) rfl fun _ _ h => h
  literal := .token rfl nofun rfl fun _ _ h => h
  receiver := .token rfl nofun rfl fun _ _ h => h
  call := .call
  member := .member
  index := .index
  array := .array
  object := .object
  named := .named
  constantKey := .constant
  computed := .computed

theorem Expr.unique (e : Expr) : e.Unique := unique_forms.expr e

/-- An expression whose printed form is derived again reprints. -/
theorem Expr.reprints_of_derives {e : Expr} {o : Bool} (h : Derives true (.expr e) o e.pieces) :
    e.reprints = true := by
  obtain ⟨_, hwritten⟩ := h.written
  exact (e.unique.unenclosed hwritten .nil (Eq.refl (e.pieces ++ []))).2.1

end LatentExpr
