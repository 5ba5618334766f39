import LatentExpr.Proofs.Expr.Forms
import LatentExpr.Proofs.Grammar.WellFormed
import LatentExpr.Proofs.Print.Pieces
import LatentExpr.Proofs.Print.Written

/-!
An expression that reprints is derived from its printed tokens: the parentheses that the printer puts by
precedence are those that the grammar asks for, and in the places where they are missing no item is
hungry, no key is a sequence and no number takes a point.
-/
namespace LatentExpr

namespace Expr

/-- Tokens of the expression stand first among operands of the levels; whatever operators of the loosest
level follow continue it. -/
def Heads (e : Expr) (T : List Piece) : List Level → Prop
  | [] => Derives true (.unary e) false T
  | level :: tighter => ∀ e' U, Derives true (.chainRest level tighter e e') false U →
    Derives true (.chain (level :: tighter) e') false (T ++ U)

/-- Tokens of the expression stand in a place that asks for a precedence of at least `least`, and go on
over a comma if the flag says so. -/
def Fits (e : Expr) (o : Bool) (T : List Piece) : Nat → Prop
  | 0 => Derives true (.expr e) true T
  | 1 => Derives true (.assignment e) o T
  | 2 => Derives true (.ternary e) o T
  | 10 => o = false ∧ ∀ e' U, Derives true (.postfixes e e') false U →
    Derives true (.unary e') false (T ++ U)
  | least => o = false ∧ e.Heads T (Level.all.drop (least - 3))

variable {e left right : Expr} {o : Bool} {T V W : List Piece} {least least' : Nat}

theorem Heads.chain {levels : List Level} (h : e.Heads T levels) :
    Derives true (.chain levels e) false T := by
  cases levels with
  | nil => exact .operand h
  | cons => simpa only [List.append_nil] using h e [] .restDone

theorem Heads.loosen {level : Level} {tighter : List Level} (h : e.Heads T tighter) :
    e.Heads T (level :: tighter) := fun _ _ hrest => .level h.chain hrest

namespace Fits

theorem loosen (h : e.Fits o T (least + 1)) (hle : least < 10) : e.Fits o T least := by
  match least, hle with
  | 0, _ => exact .single h
  | 1, _ => exact .unassigned h
  | 2, _ =>
    obtain ⟨rfl, h⟩ := h
    exact .untested h.chain
  | 3, _ | 4, _ | 5, _ | 6, _ | 7, _ | 8, _ => exact ⟨h.1, h.2.loosen⟩
  | 9, _ =>
    obtain ⟨rfl, h⟩ := h
    have hunary := h e [] .postfixesDone
    rw [List.append_nil] at hunary
    exact ⟨rfl, hunary⟩

theorem mono (h : e.Fits o T least) (hle : least' ≤ least) (hmax : least ≤ 10) : e.Fits o T least' := by
  induction hle with
  | refl => exact h
  | step _ ih => exact ih (h.loosen (by omega)) (by omega)

/-- A primary stands everywhere. -/
theorem of_primary (h : Derives true (.primary e) false T) (hmax : least ≤ 10) :
    e.Fits false T least := by
  have h10 : e.Fits false T 10 := ⟨rfl, fun _ _ hp => .unsigned h hp⟩
  exact h10.mono hmax (Nat.le_refl _)

/-- The printer's parentheses make an expression fit. -/
theorem enclose (h : e.Fits e.isOpen T e.precedence) (hp : e.precedence ≤ 10) (hmax : least ≤ 10) :
    e.Fits (e.isOpen && decide (least ≤ e.precedence)) (e.enclosePieces least T) least := by
  unfold enclosePieces
  by_cases hlt : e.precedence < least
  · have hexpr : e.Fits e.isOpen T 0 := h.mono (Nat.zero_le _) hp
    rw [if_pos hlt, decide_eq_false (Nat.not_le.2 hlt), Bool.and_false]
    exact of_primary (.group hexpr) hmax
  · rw [if_neg hlt, decide_eq_true (Nat.not_lt.1 hlt), Bool.and_true]
    exact h.mono (Nat.not_lt.1 hlt) hp

end Fits

theorem fits_level {level : Level} : e.Fits o T level.precedence ↔
    o = false ∧ e.Heads T (level :: Level.all.drop (level.precedence - 2)) := by
  cases level with
  | logical op => cases op <;> exact Iff.rfl
  | binary level => cases level <;> exact Iff.rfl

theorem fits_above_level {level : Level} : e.Fits o T (level.precedence + 1) ↔
    o = false ∧ e.Heads T (Level.all.drop (level.precedence - 2)) := by
  cases level with
  | logical op => cases op <;> exact Iff.rfl
  | binary level => cases level <;> exact Iff.rfl

/-- An operation of a level continues its left operand. -/
theorem Fits.join {level : Level} {symbol : String} {o' : Bool} (hs : symbol ∈ level.symbols)
    (hl : left.Fits o V level.precedence) (hr : right.Fits o' W (level.precedence + 1)) :
    (level.join symbol left right).Fits false (V ++ .symbol symbol :: W) level.precedence := by
  refine fits_level.2 ⟨rfl, fun e' U hrest => ?_⟩
  have h := (fits_level.1 hl).2 e' _ (.restMore hs (fits_above_level.1 hr).2.chain hrest)
  simpa only [List.append_assoc, List.cons_append] using h

/-- The expression is derived from its printed tokens, in every place that its precedence fits. -/
def Rederived (e : Expr) : Prop :=
  e.WellFormed → e.reprints = true → e.Fits e.isOpen e.pieces e.precedence

theorem Rederived.enclose (h : e.Rederived) (least : Nat) (hw : e.WellFormed) (hr : e.reprints = true)
    (hmax : least ≤ 10) :
    e.Fits (e.isOpen && decide (least ≤ e.precedence)) (e.enclosePieces least e.pieces) least :=
  (h hw hr).enclose e.precedence_le hmax

/-- The printed tokens without parentheses. -/
theorem Rederived.expr (h : e.Rederived) (hw : e.WellFormed) (hr : e.reprints = true) :
    Derives true (.expr e) true e.pieces := by
  have h0 : e.Fits e.isOpen e.pieces 0 := (h hw hr).mono (Nat.zero_le _) e.precedence_le
  exact h0

theorem not_hungry {followed : Bool} (h : e.isHungry least followed = false) (hf : followed = true) :
    (e.isOpen && decide (least ≤ e.precedence)) = false := by
  rw [isHungry, hf, Bool.true_and] at h
  exact h

end Expr

/-! ### Lists -/

variable {least : Nat} {es : List Expr}

/-- Items behind a comma, read by what reads the last one and what reads one before others. -/
theorem rest_spec {P : List Expr → List Piece → Prop} (hmax : least ≤ 10)
    (hlast : ∀ e o T, e.Fits o T least → P [e] T)
    (hmore : ∀ e es T U, e.Fits false T least → P es U → P (e :: es) (T ++ .punct ',' :: U))
    (hes : ∀ e ∈ es, e.Rederived) (hw : WellFormedItems es) (hr : reprintsItems least es = true)
    (hne : es ≠ []) : ∃ T, restPieces least es = .punct ',' :: T ∧ P es T := by
  induction es with
  | nil => exact absurd rfl hne
  | cons e es ih =>
    simp only [reprintsItems, Bool.and_eq_true, Bool.not_eq_true'] at hr
    obtain ⟨⟨hr, hhungry⟩, hrest⟩ := hr
    have hfits := (hes e List.mem_cons_self).enclose least hw.1 hr hmax
    cases es with
    | nil => exact ⟨_, by rw [restPieces, restPieces, List.append_nil], hlast _ _ _ hfits⟩
    | cons =>
      obtain ⟨T, hT, hP⟩ :=
        ih (fun e he => hes e (List.mem_cons_of_mem _ he)) hw.2 hrest (List.cons_ne_nil _ _)
      rw [Expr.not_hungry hhungry rfl] at hfits
      exact ⟨_, by rw [restPieces, hT], hmore _ _ _ _ hfits hP⟩

/-- The items of a sequence behind its first one. -/
theorem derives_items (hes : ∀ e ∈ es, e.Rederived) (hw : WellFormedItems es)
    (hr : reprintsItems 2 es = true) (hne : es ≠ []) :
    ∃ T, restPieces 2 es = .punct ',' :: T ∧ Derives true (.items es) true T :=
  rest_spec (P := fun es T => Derives true (.items es) true T) (by decide) (fun _ _ _ h => .lastItem h)
    (fun _ _ _ _ h hs => .moreItems h (fun _ => rfl) hs) hes hw hr hne

/-- The elements of a list, none of which is left out. -/
theorem derives_elements (hes : ∀ e ∈ es, e.Rederived) (hw : WellFormedItems es)
    (hr : reprintsItems 1 es = true) : Derives true (.elements es) false (itemsPieces es) := by
  cases es with
  | nil => exact .noElements
  | cons e es =>
    have hlast (e : Expr) (o : Bool) (T : List Piece) (h : e.Fits o T 1) :
        T ≠ [] ∧ Derives true (.slots [e]) false T := by
      obtain ⟨_, _, hT, -⟩ := h.starts rfl
      exact ⟨by rw [hT]; exact List.cons_ne_nil _ _, .lastSlot (.filledSlot h)⟩
    have hmore (e : Expr) (es : List Expr) (T U : List Piece) (h : e.Fits false T 1)
        (hs : U ≠ [] ∧ Derives true (.slots es) false U) :
        T ++ .punct ',' :: U ≠ [] ∧ Derives true (.slots (e :: es)) false (T ++ .punct ',' :: U) :=
      ⟨List.append_ne_nil_of_right_ne_nil _ (List.cons_ne_nil _ _),
        .moreSlots (.filledSlot h) (fun _ => rfl) hs.2⟩
    obtain ⟨T, hT, hne, hslots⟩ :=
      rest_spec (P := fun es T => T ≠ [] ∧ Derives true (.slots es) false T) (by decide) hlast hmore
        hes hw hr (List.cons_ne_nil _ _)
    rw [restPieces] at hT
    obtain rfl := (List.cons.inj hT).2
    exact .someElements hslots hne

namespace Expr

variable {left right : Expr}

theorem Rederived.assign {target value : Expr} (ht : target.Rederived) (hv : value.Rederived) :
    (Expr.assign target value).Rederived := by
  rintro ⟨hwritable, hwt, hwv⟩ hr
  simp only [reprints, Bool.and_eq_true] at hr
  have htarget := ht.enclose 2 hwt hr.1 (by decide)
  have hvalue := hv.enclose 1 hwv hr.2 (by decide)
  rw [value.isOpen_and_one_le] at hvalue
  exact .assigned htarget hwritable hvalue

theorem Rederived.comma {items : List Expr} (hitems : ∀ e ∈ items, e.Rederived) :
    (Expr.comma items).Rederived := by
  intro hw hr
  cases items with
  | nil => exact nomatch hw.1
  | cons first rest =>
    obtain ⟨hlength, hwf, hwr⟩ := hw
    have hf := hitems first List.mem_cons_self
    simp only [reprints, Bool.and_eq_true, Bool.not_eq_true'] at hr
    obtain ⟨⟨hrf, hhungry⟩, hrr⟩ := hr
    have hne : rest ≠ [] := by
      rintro rfl
      exact absurd hlength (Nat.not_succ_le_self 1)
    have hfirst := hf.enclose 1 hwf hrf (by decide)
    obtain ⟨T, hT, hitems⟩ :=
      derives_items (fun e he => hitems e (List.mem_cons_of_mem _ he)) hwr hrr hne
    rw [not_hungry hhungry (by simpa using hne)] at hfirst
    have hcomma := Derives.sequence hfirst (fun _ => rfl) hitems
    rw [← hT] at hcomma
    exact hcomma

theorem Rederived.ternary {test consequent alternate : Expr} (ht : test.Rederived)
    (hc : consequent.Rederived) (ha : alternate.Rederived) :
    (Expr.ternary test consequent alternate).Rederived := by
  rintro ⟨hwt, hwc, hwa⟩ hr
  simp only [reprints, Bool.and_eq_true] at hr
  have htest := ht.enclose 3 hwt hr.1 (by decide)
  have halternate := (ha.enclose 1 hwa hr.2.2 (by decide)).mono (Nat.zero_le 1) (by decide)
  exact .tested htest.2.chain (hc.expr hwc hr.2.1) halternate

theorem Rederived.operation (level : Level) {symbol : String} (hl : left.Rederived)
    (hr : right.Rederived) (hs : symbol ∈ level.symbols) (hwl : left.WellFormed)
    (hwr : right.WellFormed) (h : (left.reprints && right.reprints) = true) :
    (level.join symbol left right).Fits false
      (left.enclosePieces level.precedence left.pieces ++
        .symbol symbol :: right.enclosePieces (level.precedence + 1) right.pieces)
      level.precedence := by
  rw [Bool.and_eq_true] at h
  have hmax := level.precedence_lt
  exact (hl.enclose _ hwl h.1 (by omega)).join hs (hr.enclose _ hwr h.2 (by omega))

theorem Rederived.logical {op : LogicalOp} (hl : left.Rederived) (hr : right.Rederived) :
    (Expr.logical op left right).Rederived := by
  rintro ⟨hwl, hwr⟩ h
  have hfits := hl.operation (.logical op) hr (List.mem_singleton_self _) hwl hwr h
  cases op <;> exact hfits

theorem Rederived.binary {level : BinaryLevel} {op : BinaryOp} (hl : left.Rederived)
    (hr : right.Rederived) : (Expr.binary level op left right).Rederived := by
  rintro ⟨⟨symbol, hs, rfl⟩, hwl, hwr⟩ h
  have hfits := hl.operation (.binary level) hr hs hwl hwr h
  rw [Expr.pieces, BinaryOp.symbol_ofSymbol]
  cases level <;> exact hfits

theorem Rederived.unary {op : UnaryOp} {operand : Expr} (hu : operand.Rederived) :
    (Expr.unary op operand).Rederived := by
  rintro ⟨⟨symbol, hs, rfl⟩, hw⟩ h
  have hoperand := hu.enclose 9 hw h (by decide)
  rw [Expr.pieces, UnaryOp.symbol_ofSymbol]
  exact ⟨rfl, .signed hs hoperand.2⟩

/-- A primary of one token. -/
theorem Rederived.token {p : Piece} (hp : e.pieces = [p]) (h10 : e.precedence = 10)
    (hopen : e.isOpen = false) (h : e.WellFormed → p.expr? = some e) : e.Rederived := by
  intro hw _
  rw [hp, h10, hopen]
  exact .of_primary (.token (h hw)) (Nat.le_refl _)

theorem expr?_identifier {name : String} (h : isKeyword name = false) :
    (Piece.identifier name).expr? = some (.identifier name) := by
  rw [isKeyword, Bool.or_eq_false_iff, decide_eq_false_iff_not, Option.isSome_eq_false_iff,
    Option.isNone_iff_eq_none] at h
  simp only [Piece.expr?, Piece.identifier, if_neg h.1, h.2]

theorem expr?_literal (value : Literal) :
    (Piece.identifier value.keyword).expr? = some (.literal value) := by
  cases value <;> rfl

theorem Rederived.call {callee : Expr} {args : List Expr} (hc : callee.Rederived)
    (ha : ∀ e ∈ args, e.Rederived) : (Expr.call callee args).Rederived := by
  rintro ⟨hwc, hwa⟩ h
  simp only [reprints, Bool.and_eq_true] at h
  have hcallee := hc.enclose 10 hwc h.1 (by decide)
  refine ⟨rfl, fun e' U hp => ?_⟩
  have hunary := hcallee.2 e' _ (.called (derives_elements ha hwa h.2) hp)
  simpa only [Expr.pieces, List.append_assoc, List.cons_append, List.nil_append] using hunary

theorem Rederived.member {object : Expr} {name : String} (ho : object.Rederived) :
    (Expr.member object name).Rederived := by
  rintro ⟨hname, -, hw⟩ h
  simp only [reprints, Bool.and_eq_true, Bool.not_eq_true'] at h
  have hobject := ho.enclose 10 hw h.1 (by decide)
  refine ⟨rfl, fun e' U hp => ?_⟩
  have hunary := hobject.2 e' _ (.selected hname hp)
  rw [Expr.pieces, memberPieces_of_not_isWhole (by rw [h.2]; exact Bool.false_ne_true)]
  simpa only [List.append_assoc, List.cons_append, List.nil_append] using hunary

theorem Rederived.index {object key : Expr} (ho : object.Rederived) (hk : key.Rederived) :
    (Expr.index object key).Rederived := by
  rintro ⟨hwo, hwk⟩ h
  simp only [reprints, Bool.and_eq_true] at h
  have hobject := ho.enclose 10 hwo h.1 (by decide)
  refine ⟨rfl, fun e' U hp => ?_⟩
  have hunary := hobject.2 e' _ (.indexed (hk.expr hwk h.2) hp)
  simpa only [Expr.pieces, List.append_assoc, List.cons_append, List.nil_append] using hunary

theorem Rederived.array {elements : List Expr} (he : ∀ e ∈ elements, e.Rederived) :
    (Expr.array elements).Rederived := fun hw h =>
  .of_primary (.array (derives_elements he hw h)) (Nat.le_refl _)

end Expr

/-! ### Properties -/

namespace Property

/-- The property is derived from its printed tokens. -/
def Rederived (p : Property) : Prop :=
  ∀ followed : Bool, p.WellFormed → p.reprints followed = true →
    ∃ o, Derives true (.property p) o p.pieces ∧ (followed = true → o = false)

variable {key value : Expr}

theorem value_fits {followed : Bool} (hv : value.Rederived) (hw : value.WellFormed)
    (h : (value.reprints && !value.isHungry 1 followed) = true) :
    ∃ o, Derives true (.assignment value) o (value.enclosePieces 1 value.pieces) ∧
      (followed = true → o = false) := by
  simp only [Bool.and_eq_true, Bool.not_eq_true'] at h
  exact ⟨_, hv.enclose 1 hw h.1 (by decide), Expr.not_hungry h.2⟩

theorem Rederived.named {name : String} (hv : value.Rederived) :
    (Property.named name value).Rederived := by
  rintro followed ⟨-, hw⟩ h
  rw [Property.pieces]
  by_cases hnamed : value.isNamed name = true
  · rw [if_pos hnamed]
    cases value with
    | identifier other =>
      obtain rfl : other = name := by simpa [Expr.isNamed] using hnamed
      exact ⟨false, .shorthand hw.1, fun _ => rfl⟩
    | _ => cases hnamed
  · rw [if_neg hnamed]
    obtain ⟨o, hvalue, ho⟩ := value_fits hv hw h
    exact ⟨o, .named hvalue, ho⟩

theorem Rederived.constant {kind : ConstantKind} {text : String} (hv : value.Rederived) :
    (Property.constant kind text value).Rederived := by
  rintro followed ⟨-, hw⟩ h
  obtain ⟨o, hvalue, ho⟩ := value_fits hv hw h
  exact ⟨o, .constant hvalue, ho⟩

theorem Rederived.computed (hk : key.Rederived) (hv : value.Rederived) :
    (Property.computed key value).Rederived := by
  rintro followed ⟨hwk, hwv⟩ h
  rw [Property.reprints, Bool.and_eq_true, Bool.and_eq_true, Bool.not_eq_true'] at h
  obtain ⟨⟨hrk, hcomma⟩, hrv⟩ := h
  obtain ⟨o, hvalue, ho⟩ := value_fits hv hwv hrv
  have hkey := (hk hwk hrk).mono ((Expr.isComma_eq_false_iff key).1 hcomma) key.precedence_le
  exact ⟨o, .computed hkey hvalue, ho⟩

end Property

/-- The properties of an object literal, with no empty places. -/
theorem derives_properties {ps : List Property} (hps : ∀ p ∈ ps, p.Rederived)
    (hw : WellFormedProperties ps) (hr : reprintsProperties ps = true) :
    Derives true (.properties ps) false (propertiesPieces ps) := by
  cases ps with
  | nil => exact .noProperties
  | cons p rest =>
    refine .someProperties ?_
    induction rest generalizing p with
    | nil =>
      simp only [reprintsProperties, Bool.and_eq_true] at hr
      obtain ⟨o, hp, -⟩ := hps p List.mem_cons_self _ hw.1 hr.1
      exact .lastPlace (.filledPlace hp)
    | cons q rest ih =>
      rw [reprintsProperties, Bool.and_eq_true] at hr
      obtain ⟨o, hp, ho⟩ := hps p List.mem_cons_self _ hw.1 hr.1
      obtain rfl := ho rfl
      have hplaces := ih q (fun p h => hps p (List.mem_cons_of_mem _ h)) hw.2 hr.2
      exact .morePlaces (.filledPlace hp) (fun _ => rfl) hplaces

theorem Expr.Rederived.object {ps : List Property} (hps : ∀ p ∈ ps, p.Rederived) :
    (Expr.object ps).Rederived := fun hw h =>
  .of_primary (.object (derives_properties hps hw h)) (Nat.le_refl _)

/-! ### Every expression -/

theorem rederived_forms : Forms Expr.Rederived Property.Rederived where
  assign := .assign
  comma := .comma
  ternary := .ternary
  logical := .logical
  binary := .binary
  unary := .unary
  identifier := .token rfl rfl rfl fun hw => Expr.expr?_identifier hw.1
  constant {kind _} := .token rfl rfl rfl fun _ => by cases kind <;> rfl
  literal {value} := .token rfl rfl rfl fun _ => Expr.expr?_literal value
  receiver := .token rfl rfl rfl fun _ => rfl
  call := .call
  member := .member
  index := .index
  array := .array
  object := .object
  named := .named
  constantKey := .constant
  computed := .computed

theorem Expr.rederived (e : Expr) : e.Rederived := rederived_forms.expr e

/-- An expression that reprints is derived from its printed tokens. -/
theorem Expr.derives_pieces {e : Expr} (hw : e.WellFormed) (hr : e.reprints = true) :
    Derives true (.expr e) true e.pieces := e.rederived.expr hw hr

end LatentExpr
