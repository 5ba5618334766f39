import LatentExpr.Proofs.Expr.Throughout
import LatentExpr.Proofs.Print.Printed
import LatentExpr.Proofs.Print.Rederived
import LatentExpr.Proofs.Print.Unique

/-!
Printing and parsing. The printed form of a well-formed expression has one reading, its pieces; the
expression is derived from them exactly if it reprints. So the parser is a left inverse of the printer on
the expressions that reprint, and on no others. Without ternaries, members of numbers and sequences as keys,
every expression reprints.
-/
namespace LatentExpr

/-- The printed form of a well-formed expression that reprints is parsed as the expression. -/
theorem Expr.parse_print_of_wellFormed {e : Expr} (hw : e.WellFormed) (hr : e.reprints = true) :
    Expr.parse e.print .builtIn = .ok e :=
  parse_eq_ok_iff.2 ⟨e.pieces, Expr.reads_print hw, Expr.derives_pieces hw hr⟩

/-- Whatever is parsed is parsed again from its printed form exactly if it reprints. -/
theorem parse_print_iff (source : String) (e : Expr) (h : Expr.parse source .builtIn = .ok e) :
    Expr.parse e.print .builtIn = .ok e ↔ e.reprints = true := by
  obtain ⟨T, hreads, hderives⟩ := parse_eq_ok_iff.1 h
  have hw : e.WellFormed := hderives.wellFormed hreads.lexed
  constructor
  · intro hprint
    obtain ⟨T', hreads', hderives'⟩ := parse_eq_ok_iff.1 hprint
    rw [hreads'.unique (Expr.reads_print hw)] at hderives'
    exact Expr.reprints_of_derives hderives'
  · exact Expr.parse_print_of_wellFormed hw

/-- A member of a whole number is lost: its point is read as that of the number. -/
theorem parse_print_iff_whole :
    Expr.parse "5 .x" .builtIn = .ok (.member (.constant .number "5") "x") ∧
      Expr.parse "5.x" .builtIn ≠ .ok (.member (.constant .number "5") "x") := by
  have h : Expr.parse "5 .x" .builtIn = .ok (.member (.constant .number "5") "x") := by cbv
  exact ⟨h, fun hprint => Bool.false_ne_true ((parse_print_iff _ _ h).1 hprint)⟩

/-! ### Expressions without the open forms -/

/-- The expression is no ternary and no member of a number. -/
def Expr.Guarded : Expr → Prop
  | .ternary .. => False
  | .member (.constant .number _) _ => False
  | _ => True

/-- The property has no sequence as its key. -/
def Property.Guarded : Property → Prop
  | .computed (.comma _) _ => False
  | _ => True

/-- An expression that reprints and that no comma can follow wrongly. -/
structure Expr.Shut (e : Expr) : Prop where
  shut : e.isOpen = false
  reprints : e.reprints = true

theorem Expr.Shut.isHungry {e : Expr} (h : e.Shut) (least : Nat) (followed : Bool) :
    e.isHungry least followed = false := by
  rw [Expr.isHungry, h.shut, Bool.and_false, Bool.false_and]

theorem reprintsItems_of_shut {items : List Expr} (h : ∀ e ∈ items, e.Shut) (least : Nat) :
    reprintsItems least items = true := by
  induction items with
  | nil => rfl
  | cons item rest ih =>
    obtain ⟨hitem, hrest⟩ := List.forall_mem_cons.1 h
    rw [reprintsItems, hitem.reprints, hitem.isHungry, ih hrest]
    rfl

theorem reprintsProperties_of_forall {ps : List Property} (h : ∀ p ∈ ps, ∀ followed, p.reprints followed = true) :
    reprintsProperties ps = true := by
  induction ps with
  | nil => rfl
  | cons p rest ih =>
    obtain ⟨hp, hrest⟩ := List.forall_mem_cons.1 h
    rw [reprintsProperties, hp, ih hrest]
    rfl

theorem shut_forms :
    Forms (fun e => e.Throughout Expr.Guarded Property.Guarded → e.Shut)
      (fun p => p.Throughout Expr.Guarded Property.Guarded → ∀ followed, p.reprints followed = true) where
  assign ht hv h := ⟨(hv h.2.2).shut, by rw [Expr.reprints, (ht h.2.1).reprints, (hv h.2.2).reprints]; rfl⟩
  comma {items} hi h := by
    refine ⟨rfl, ?_⟩
    have hitems : ∀ e ∈ items, e.Shut := fun e he => hi e he (throughoutAll_iff.1 h.2 e he)
    cases items with
    | nil => rfl
    | cons first rest =>
      obtain ⟨hfirst, hrest⟩ := List.forall_mem_cons.1 hitems
      rw [Expr.reprints, hfirst.reprints, hfirst.isHungry, reprintsItems_of_shut hrest]
      rfl
  ternary _ _ _ h := h.1.elim
  logical hl hr h := ⟨rfl, by rw [Expr.reprints, (hl h.2.1).reprints, (hr h.2.2).reprints]; rfl⟩
  binary hl hr h := ⟨rfl, by rw [Expr.reprints, (hl h.2.1).reprints, (hr h.2.2).reprints]; rfl⟩
  unary ho h := ⟨rfl, (ho h.2).reprints⟩
  identifier _ := ⟨rfl, rfl⟩
  constant _ := ⟨rfl, rfl⟩
  literal _ := ⟨rfl, rfl⟩
  receiver _ := ⟨rfl, rfl⟩
  call {_ args} hc ha h := by
    have hargs : ∀ e ∈ args, e.Shut := fun e he => ha e he (throughoutAll_iff.1 h.2.2 e he)
    refine ⟨rfl, ?_⟩
    rw [Expr.reprints, (hc h.2.1).reprints, reprintsItems_of_shut hargs]
    rfl
  member {target name} ho h := by
    refine ⟨rfl, ?_⟩
    have hwhole : target.isWhole = false := by
      rw [Bool.eq_false_iff]
      intro hwhole
      obtain ⟨text, rfl, -⟩ := Expr.isWhole_iff.1 hwhole
      exact h.1
    rw [Expr.reprints, (ho h.2).reprints, hwhole]
    rfl
  index ho hk h := ⟨rfl, by rw [Expr.reprints, (ho h.2.1).reprints, (hk h.2.2).reprints]; rfl⟩
  array he h := ⟨rfl, reprintsItems_of_shut (fun e hmem => he e hmem (throughoutAll_iff.1 h.2 e hmem)) 1⟩
  object hp h :=
    ⟨rfl, reprintsProperties_of_forall fun p hmem => hp p hmem (throughoutProperties_iff.1 h.2 p hmem)⟩
  named hv h followed := by
    rw [Property.reprints, (hv h.2).reprints, (hv h.2).isHungry]
    rfl
  constantKey hv h followed := by
    rw [Property.reprints, (hv h.2).reprints, (hv h.2).isHungry]
    rfl
  computed {key _} hk hv h followed := by
    have hcomma : key.isComma = false := by
      cases key with
      | comma => exact h.1.elim
      | _ => rfl
    rw [Property.reprints, (hk h.2.1).reprints, hcomma, (hv h.2.2).reprints, (hv h.2.2).isHungry]
    rfl

/-- Whatever is parsed that has no ternary in it, no member of a number and no sequence as a key, is parsed
again from its printed form. -/
theorem parse_print_of_guarded (source : String) (e : Expr) (h : Expr.parse source .builtIn = .ok e)
    (hg : e.Throughout Expr.Guarded Property.Guarded) : Expr.parse e.print .builtIn = .ok e := by
  obtain ⟨T, hreads, hderives⟩ := parse_eq_ok_iff.1 h
  exact Expr.parse_print_of_wellFormed (hderives.wellFormed hreads.lexed) (shut_forms.expr e hg).reprints

/-- An expression whose parentheses are all needed. -/
def Expr.nested : Expr :=
  .binary .additive .sub (.identifier "a")
    (.index (.binary .additive .sub (.identifier "b") (.unary .neg (.unary .neg (.identifier "c"))))
      (.array [.comma [.identifier "d", .identifier "e"], .assign (.identifier "f") (.constant .number ".5")]))

/-- Parentheses that are needed on the right, about an object and about an item, and some that are not. -/
theorem parse_print_of_guarded_nested :
    Expr.parse "(a) - (b - -(- c))[([(d, e), (f = .5)])]" .builtIn = .ok .nested ∧
      Expr.nested.print = "a - (b - - -c)[[(d, e), f = .5]]" ∧
      Expr.parse Expr.nested.print .builtIn = .ok .nested := by
  have h : Expr.parse "(a) - (b - -(- c))[([(d, e), (f = .5)])]" .builtIn = .ok .nested := by
    set_option maxRecDepth 2000 in cbv
  refine ⟨h, by decide, parse_print_of_guarded _ _ h ?_⟩
  simp [Expr.nested, Expr.Throughout, ThroughoutAll, Expr.Guarded]

end LatentExpr
