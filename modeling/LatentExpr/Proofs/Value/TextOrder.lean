import LatentExpr.Eval.Operators
import LatentExpr.Proofs.Text.Encoded
import LatentExpr.Proofs.Value.Equalities

/-!
The order of texts. Relational operators go by UTF-16 units and strict equality by characters. The order of units is
linear, and different texts have different units: of two texts one is below, or they are strictly equal
(`comparisons_of_strings`). It is not the order of the characters' codes, as a pair of units is below a unit that
follows the surrogates.
-/
namespace LatentExpr

namespace Text
variable {as bs : List Nat} {a b : Nat}

/-- The order of units is the lexicographic one. -/
theorem compareUnits_eq_compare (as bs : List Nat) : compareUnits as bs = compare as bs := by
  fun_induction compareUnits as bs with
  | case1 => rfl
  | case2 => rfl
  | case3 => rfl
  | case4 a as b bs hlt => rw [List.compare_cons_cons, Nat.compare_eq_lt.2 hlt, Ordering.lt_then]
  | case5 a as b bs hle hlt => rw [List.compare_cons_cons, Nat.compare_eq_gt.2 hlt, Ordering.gt_then]
  | case6 a as b bs hle hge ih =>
    rw [List.compare_cons_cons, Nat.compare_eq_eq.2 (by omega), Ordering.eq_then, ih]

/-- One sequence is below another one: the first unit that differs is smaller, or it ends where the other goes on. -/
def Precedes (as bs : List Nat) : Prop :=
  (∃ front a as' b bs', as = front ++ a :: as' ∧ bs = front ++ b :: bs' ∧ a < b) ∨ as <+: bs ∧ as ≠ bs

theorem not_precedes_nil : ¬ Precedes as [] := by
  rintro (⟨front, a, as', b, bs', -, h, -⟩ | ⟨hbegins, hne⟩)
  · simp at h
  · exact hne (List.prefix_nil.1 hbegins)

theorem nil_precedes_cons : Precedes [] (b :: bs) := .inr ⟨List.nil_prefix, nofun⟩

theorem cons_precedes_cons_iff : Precedes (a :: as) (b :: bs) ↔ a < b ∨ a = b ∧ Precedes as bs := by
  constructor
  · rintro (⟨front, x, as', y, bs', ha, hb, hlt⟩ | ⟨hbegins, hne⟩)
    · cases front with
      | nil =>
        cases ha
        cases hb
        exact .inl hlt
      | cons z front =>
        rw [List.cons_append, List.cons.injEq] at ha hb
        exact .inr ⟨ha.1.trans hb.1.symm, .inl ⟨front, x, as', y, bs', ha.2, hb.2, hlt⟩⟩
    · obtain ⟨rfl, hrest⟩ := List.cons_prefix_cons.1 hbegins
      exact .inr ⟨rfl, .inr ⟨hrest, fun heq => hne (congrArg _ heq)⟩⟩
  · rintro (hlt | ⟨rfl, ⟨front, x, as', y, bs', rfl, rfl, hlt⟩ | ⟨hbegins, hne⟩⟩)
    · exact .inl ⟨[], a, as, b, bs, rfl, rfl, hlt⟩
    · exact .inl ⟨a :: front, x, as', y, bs', rfl, rfl, hlt⟩
    · exact .inr ⟨List.cons_prefix_cons.2 ⟨rfl, hbegins⟩, fun heq => hne (List.cons.inj heq).2⟩

theorem compareUnits_eq_lt_iff (as bs : List Nat) : compareUnits as bs = .lt ↔ Precedes as bs := by
  fun_induction compareUnits as bs with
  | case1 => simp [not_precedes_nil]
  | case2 => simp [nil_precedes_cons]
  | case3 => simp [not_precedes_nil]
  | case4 a as b bs hlt => simp [cons_precedes_cons_iff, hlt]
  | case5 a as b bs hle hlt => simp [cons_precedes_cons_iff, hle, Nat.ne_of_gt hlt]
  | case6 a as b bs hle hge ih =>
    obtain rfl : a = b := by omega
    simp [cons_precedes_cons_iff, ih]

theorem units_inj {s t : List Char} : units s = units t ↔ s = t :=
  ⟨selfSynchronizing_charUnits.injective, congrArg _⟩

end Text

namespace Operators
variable {σ : Type} {w : World σ} {s t u : String}

/-- How two texts compare. -/
def textOrder (s t : String) : Ordering := Text.compareUnits (Text.units s.toList) (Text.units t.toList)

theorem textOrder_eq_eq_iff : textOrder s t = .eq ↔ s = t := by
  rw [textOrder, Text.compareUnits_eq_compare, Std.compare_eq_iff_eq, Text.units_inj, String.toList_inj]

theorem textOrder_eq_gt_iff : textOrder s t = .gt ↔ textOrder t s = .lt := by
  rw [textOrder, textOrder, Text.compareUnits_eq_compare, Text.compareUnits_eq_compare]
  exact Std.OrientedCmp.gt_iff_lt

theorem textOrder_trans (hst : textOrder s t = .lt) (htu : textOrder t u = .lt) : textOrder s u = .lt := by
  rw [textOrder, Text.compareUnits_eq_compare] at *
  exact Std.TransCmp.lt_trans hst htu

/-- An operator that has no configured meaning holds of two texts, and the world is left as it is. -/
def Holds (w : World σ) (op : BinaryOp) (s t : String) : Prop :=
  empty.applyBinary op (.string s) (.string t) w = (.ok (.bool true), w)

theorem applyBinary_empty (op : BinaryOp) (a b : Value) : empty.applyBinary op a b w = (op.apply w.heap a b, w) := rfl

theorem compare?_string (h : Heap) (s t : String) : h.compare? (.string s) (.string t) = some (textOrder s t) := rfl

theorem holds_lt_iff : Holds w .lt s t ↔ textOrder s t = .lt := by
  simp [Holds, applyBinary_empty, BinaryOp.apply, compare?_string]

theorem holds_gt_iff : Holds w .gt s t ↔ textOrder s t = .gt := by
  simp [Holds, applyBinary_empty, BinaryOp.apply, compare?_string]

theorem holds_le_iff : Holds w .le s t ↔ textOrder s t = .lt ∨ textOrder s t = .eq := by
  simp [Holds, applyBinary_empty, BinaryOp.apply, compare?_string]

theorem holds_ge_iff : Holds w .ge s t ↔ textOrder s t = .gt ∨ textOrder s t = .eq := by
  simp [Holds, applyBinary_empty, BinaryOp.apply, compare?_string]

theorem holds_strictEq_iff : Holds w .strictEq s t ↔ s = t := by
  simp [Holds, applyBinary_empty, BinaryOp.apply, Value.strictEqual_string]

/-- The operator that holds of texts that compare so. -/
def ofOrdering : Ordering → BinaryOp
  | .lt => .lt
  | .eq => .strictEq
  | .gt => .gt

theorem holds_ofOrdering_iff (order : Ordering) : Holds w (ofOrdering order) s t ↔ textOrder s t = order := by
  cases order
  · exact holds_lt_iff
  · exact holds_strictEq_iff.trans textOrder_eq_eq_iff.symm
  · exact holds_gt_iff

/-- The comparisons of texts. Each answers; `===` holds of a text and itself; one of `<`, `===` and `>` holds and no
other one; `<=` and `>=` are `<` and `>` or else `===`; `>` is `<` the other way round; `<` is transitive, and it is the
order of UTF-16 units. -/
theorem comparisons_of_strings (w : World σ) :
    (∀ op ∈ [BinaryOp.lt, .le, .gt, .ge, .strictEq], ∀ s t, ∃ answer,
        empty.applyBinary op (.string s) (.string t) w = (.ok (.bool answer), w)) ∧
      (∀ s t, Holds w .strictEq s t ↔ s = t) ∧
      (∀ s t, ∃! op, op ∈ [BinaryOp.lt, .strictEq, .gt] ∧ Holds w op s t) ∧
      (∀ s t, Holds w .le s t ↔ Holds w .lt s t ∨ Holds w .strictEq s t) ∧
      (∀ s t, Holds w .ge s t ↔ Holds w .gt s t ∨ Holds w .strictEq s t) ∧
      (∀ s t, Holds w .gt s t ↔ Holds w .lt t s) ∧
      (∀ s t u, Holds w .lt s t → Holds w .lt t u → Holds w .lt s u) ∧
      ∀ s t, Holds w .lt s t ↔ Text.Precedes (Text.units s.toList) (Text.units t.toList) := by
  refine ⟨?answers, fun s t => holds_strictEq_iff, fun s t => ?one, fun s t => ?_, fun s t => ?_, fun s t => ?_,
    fun s t u => ?_, fun s t => ?_⟩
  case answers =>
    simp only [List.forall_mem_cons, applyBinary_empty, BinaryOp.apply]
    exact ⟨fun _ _ => ⟨_, rfl⟩, fun _ _ => ⟨_, rfl⟩, fun _ _ => ⟨_, rfl⟩, fun _ _ => ⟨_, rfl⟩, fun _ _ => ⟨_, rfl⟩,
      List.forall_mem_nil _⟩
  case one =>
    refine ⟨ofOrdering (textOrder s t), ⟨?_, (holds_ofOrdering_iff _).2 rfl⟩, ?_⟩
    · cases textOrder s t <;> decide
    · rintro op ⟨hop, hholds⟩
      obtain ⟨order, rfl⟩ : ∃ order, ofOrdering order = op := by
        simp only [List.mem_cons, List.not_mem_nil, or_false] at hop
        rcases hop with rfl | rfl | rfl
        exacts [⟨.lt, rfl⟩, ⟨.eq, rfl⟩, ⟨.gt, rfl⟩]
      rw [(holds_ofOrdering_iff order).1 hholds]
  · rw [holds_le_iff, holds_lt_iff, holds_strictEq_iff, textOrder_eq_eq_iff]
  · rw [holds_ge_iff, holds_gt_iff, holds_strictEq_iff, textOrder_eq_eq_iff]
  · rw [holds_gt_iff, holds_lt_iff, textOrder_eq_gt_iff]
  · rw [holds_lt_iff, holds_lt_iff, holds_lt_iff]
    exact textOrder_trans
  · rw [holds_lt_iff, textOrder, Text.compareUnits_eq_lt_iff]

/-- A pair of units is above `a` and below the last character of one unit, whose code is smaller. -/
theorem comparisons_of_strings_pair :
    let w : World Unit := ⟨⟨#[], #[]⟩, #[], ()⟩
    Holds w .lt "a" "\uffff" ∧ Holds w .le "😀" "\uffff" ∧ '\uffff' < '😀' := by
  intro w
  obtain ⟨-, -, -, hle, -, -, htrans, -⟩ := comparisons_of_strings w
  have hpair : Holds w .lt "😀" "\uffff" := holds_lt_iff.2 (by decide)
  have habove : Holds w .lt "a" "😀" := holds_lt_iff.2 (by decide)
  exact ⟨htrans _ _ _ habove hpair, (hle _ _).2 (.inl hpair), by decide⟩

end Operators

end LatentExpr
