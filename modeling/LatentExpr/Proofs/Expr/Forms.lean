import LatentExpr.Expr.Basic

/-!
Induction over expressions. Expressions stand in lists and in properties of other expressions; `Forms`
collects what each form needs of its parts, the members of its lists included, and gives the two
statements for every expression and every property.
-/
namespace LatentExpr

/-- Every form has what `P` says of expressions and `Q` of properties, if its parts have it. -/
structure Forms (P : Expr → Prop) (Q : Property → Prop) : Prop where
  assign : ∀ {target value}, P target → P value → P (.assign target value)
  comma : ∀ {items}, (∀ e ∈ items, P e) → P (.comma items)
  ternary : ∀ {test consequent alternate}, P test → P consequent → P alternate →
    P (.ternary test consequent alternate)
  logical : ∀ {op left right}, P left → P right → P (.logical op left right)
  binary : ∀ {level op left right}, P left → P right → P (.binary level op left right)
  unary : ∀ {op operand}, P operand → P (.unary op operand)
  identifier : ∀ {name}, P (.identifier name)
  constant : ∀ {kind text}, P (.constant kind text)
  literal : ∀ {value}, P (.literal value)
  receiver : P .receiver
  call : ∀ {callee args}, P callee → (∀ e ∈ args, P e) → P (.call callee args)
  member : ∀ {target name}, P target → P (.member target name)
  index : ∀ {target key}, P target → P key → P (.index target key)
  array : ∀ {elements}, (∀ e ∈ elements, P e) → P (.array elements)
  object : ∀ {properties}, (∀ p ∈ properties, Q p) → P (.object properties)
  named : ∀ {name value}, P value → Q (.named name value)
  constantKey : ∀ {kind text value}, P value → Q (.constant kind text value)
  computed : ∀ {key value}, P key → P value → Q (.computed key value)

namespace Forms

variable {P : Expr → Prop} {Q : Property → Prop}

mutual

theorem expr (h : Forms P Q) : ∀ e, P e
  | .assign target value => h.assign (h.expr target) (h.expr value)
  | .comma items => h.comma (h.items items)
  | .ternary test consequent alternate =>
    h.ternary (h.expr test) (h.expr consequent) (h.expr alternate)
  | .logical _ left right => h.logical (h.expr left) (h.expr right)
  | .binary _ _ left right => h.binary (h.expr left) (h.expr right)
  | .unary _ operand => h.unary (h.expr operand)
  | .identifier _ => h.identifier
  | .constant _ _ => h.constant
  | .literal _ => h.literal
  | .receiver => h.receiver
  | .call callee args => h.call (h.expr callee) (h.items args)
  | .member target _ => h.member (h.expr target)
  | .index target key => h.index (h.expr target) (h.expr key)
  | .array elements => h.array (h.items elements)
  | .object properties => h.object (h.properties properties)

theorem items (h : Forms P Q) : ∀ es : List Expr, ∀ e ∈ es, P e
  | [], _, hmem => nomatch hmem
  | e :: es, _, hmem => by
    rcases List.mem_cons.1 hmem with heq | hmem
    · exact heq ▸ h.expr e
    · exact h.items es _ hmem

theorem property (h : Forms P Q) : ∀ p, Q p
  | .named _ value => h.named (h.expr value)
  | .constant _ _ value => h.constantKey (h.expr value)
  | .computed key value => h.computed (h.expr key) (h.expr value)

theorem properties (h : Forms P Q) : ∀ ps : List Property, ∀ p ∈ ps, Q p
  | [], _, hmem => nomatch hmem
  | p :: ps, _, hmem => by
    rcases List.mem_cons.1 hmem with heq | hmem
    · exact heq ▸ h.property p
    · exact h.properties ps _ hmem

end

end Forms

end LatentExpr
