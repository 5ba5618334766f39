import LatentExpr.Proofs.Expr.Forms

/-!
What holds in a whole tree: of an expression and of all expressions and properties inside it.
-/
namespace LatentExpr

mutual

/-- `P` holds of an expression and of every expression inside it, and `Q` of every property inside it. -/
def Expr.Throughout (P : Expr → Prop) (Q : Property → Prop) (e : Expr) : Prop :=
  P e ∧ match e with
    | .assign target value => target.Throughout P Q ∧ value.Throughout P Q
    | .comma items => ThroughoutAll P Q items
    | .ternary test consequent alternate =>
      test.Throughout P Q ∧ consequent.Throughout P Q ∧ alternate.Throughout P Q
    | .logical _ left right => left.Throughout P Q ∧ right.Throughout P Q
    | .binary _ _ left right => left.Throughout P Q ∧ right.Throughout P Q
    | .unary _ operand => operand.Throughout P Q
    | .identifier _ | .constant .. | .literal _ | .receiver => True
    | .call callee args => callee.Throughout P Q ∧ ThroughoutAll P Q args
    | .member object _ => object.Throughout P Q
    | .index object key => object.Throughout P Q ∧ key.Throughout P Q
    | .array elements => ThroughoutAll P Q elements
    | .object properties => ThroughoutProperties P Q properties
termination_by structural e

def ThroughoutAll (P : Expr → Prop) (Q : Property → Prop) : List Expr → Prop
  | [] => True
  | e :: rest => e.Throughout P Q ∧ ThroughoutAll P Q rest
termination_by structural es => es

def Property.Throughout (P : Expr → Prop) (Q : Property → Prop) (p : Property) : Prop :=
  Q p ∧ match p with
    | .named _ value => value.Throughout P Q
    | .constant _ _ value => value.Throughout P Q
    | .computed key value => key.Throughout P Q ∧ value.Throughout P Q
termination_by structural p

def ThroughoutProperties (P : Expr → Prop) (Q : Property → Prop) : List Property → Prop
  | [] => True
  | p :: rest => p.Throughout P Q ∧ ThroughoutProperties P Q rest
termination_by structural ps => ps

end

variable {P P' : Expr → Prop} {Q Q' : Property → Prop}

theorem throughoutAll_iff {es : List Expr} :
    ThroughoutAll P Q es ↔ ∀ e ∈ es, e.Throughout P Q := by
  induction es with
  | nil => simp [ThroughoutAll]
  | cons e rest ih => simp [ThroughoutAll, ih]

theorem throughoutProperties_iff {ps : List Property} :
    ThroughoutProperties P Q ps ↔ ∀ p ∈ ps, p.Throughout P Q := by
  induction ps with
  | nil => simp [ThroughoutProperties]
  | cons p rest ih => simp [ThroughoutProperties, ih]

/-- What holds of everything holds throughout. -/
theorem throughout_forms (hP : ∀ e, P e) (hQ : ∀ p, Q p) :
    Forms (fun e => e.Throughout P Q) (fun p => p.Throughout P Q) where
  assign ht hv := ⟨hP _, ht, hv⟩
  comma hi := ⟨hP _, throughoutAll_iff.2 hi⟩
  ternary ht hc ha := ⟨hP _, ht, hc, ha⟩
  logical hl hr := ⟨hP _, hl, hr⟩
  binary hl hr := ⟨hP _, hl, hr⟩
  unary ho := ⟨hP _, ho⟩
  identifier := ⟨hP _, trivial⟩
  constant := ⟨hP _, trivial⟩
  literal := ⟨hP _, trivial⟩
  receiver := ⟨hP _, trivial⟩
  call hc ha := ⟨hP _, hc, throughoutAll_iff.2 ha⟩
  member ho := ⟨hP _, ho⟩
  index ho hk := ⟨hP _, ho, hk⟩
  array he := ⟨hP _, throughoutAll_iff.2 he⟩
  object hp := ⟨hP _, throughoutProperties_iff.2 hp⟩
  named hv := ⟨hQ _, hv⟩
  constantKey hv := ⟨hQ _, hv⟩
  computed hk hv := ⟨hQ _, hk, hv⟩

theorem throughout_mono_forms (hP : ∀ e, P e → P' e) (hQ : ∀ p, Q p → Q' p) :
    Forms (fun e => e.Throughout P Q → e.Throughout P' Q')
      (fun p => p.Throughout P Q → p.Throughout P' Q') where
  assign ht hv h := ⟨hP _ h.1, ht h.2.1, hv h.2.2⟩
  comma hi h := ⟨hP _ h.1, throughoutAll_iff.2 fun e he => hi e he (throughoutAll_iff.1 h.2 e he)⟩
  ternary ht hc ha h := ⟨hP _ h.1, ht h.2.1, hc h.2.2.1, ha h.2.2.2⟩
  logical hl hr h := ⟨hP _ h.1, hl h.2.1, hr h.2.2⟩
  binary hl hr h := ⟨hP _ h.1, hl h.2.1, hr h.2.2⟩
  unary ho h := ⟨hP _ h.1, ho h.2⟩
  identifier h := ⟨hP _ h.1, trivial⟩
  constant h := ⟨hP _ h.1, trivial⟩
  literal h := ⟨hP _ h.1, trivial⟩
  receiver h := ⟨hP _ h.1, trivial⟩
  call hc ha h :=
    ⟨hP _ h.1, hc h.2.1, throughoutAll_iff.2 fun e he => ha e he (throughoutAll_iff.1 h.2.2 e he)⟩
  member ho h := ⟨hP _ h.1, ho h.2⟩
  index ho hk h := ⟨hP _ h.1, ho h.2.1, hk h.2.2⟩
  array hi h := ⟨hP _ h.1, throughoutAll_iff.2 fun e he => hi e he (throughoutAll_iff.1 h.2 e he)⟩
  object hp h :=
    ⟨hP _ h.1, throughoutProperties_iff.2 fun p hmem => hp p hmem (throughoutProperties_iff.1 h.2 p hmem)⟩
  named hv h := ⟨hQ _ h.1, hv h.2⟩
  constantKey hv h := ⟨hQ _ h.1, hv h.2⟩
  computed hk hv h := ⟨hQ _ h.1, hk h.2.1, hv h.2.2⟩

theorem Expr.Throughout.mono (hP : ∀ e, P e → P' e) (hQ : ∀ p, Q p → Q' p) {e : Expr}
    (he : e.Throughout P Q) : e.Throughout P' Q' :=
  (throughout_mono_forms hP hQ).expr e he

end LatentExpr
