import LatentExpr.Proofs.Heap.Structural

/-!
Strict and loose equality. `LooseRun` decides loose equality as it is told, one conversion after the other, and each
conversion begins the comparison again; every run ends, and `looseEqual`, in which no order of conversions is left, is
what it comes to (`looseRun_iff`).
Loose equality is symmetric and says within a type what strict equality says (`looseEqual_extends_strictEqual`); strict
equality is symmetric and transitive and fails of NaN alone.
-/
namespace LatentExpr

theorem Number.equal_comm (m n : Number) : m.equal n = n.equal m := by
  rw [Bool.eq_iff_iff, equal_iff, equal_iff]
  constructor <;>
  · rintro (⟨hnan, rfl⟩ | ⟨hm, hn⟩)
    · exact .inl ⟨hnan, rfl⟩
    · exact .inr ⟨hn, hm⟩

namespace Value
variable {a b c : Value}

/-! ### Strict equality -/

/-- Both are zeros, of either sign. -/
def AreZeros (a b : Value) : Prop := ∃ m n, a = .number m ∧ b = .number n ∧ m.isZero = true ∧ n.isZero = true

/-- A value equals itself, NaN excepted, and the zeros equal each other. -/
theorem strictEqual_iff : a.strictEqual b = true ↔ (a = b ∧ a ≠ .number .nan) ∨ AreZeros a b := by
  unfold strictEqual
  split
  · rename_i m n
    have hnan : m.isNaN = false ↔ m ≠ .nan := by cases m <;> simp [Number.isNaN]
    rw [Number.equal_iff, hnan]
    simp [AreZeros, and_comm]
  · rename_i hnumbers
    rw [decide_eq_true_iff]
    constructor
    · rintro rfl
      exact .inl ⟨rfl, fun heq => hnumbers _ _ heq heq⟩
    · rintro (⟨hab, -⟩ | ⟨m, n, ha, hb, -⟩)
      · exact hab
      · exact absurd hb (hnumbers m n ha)

theorem strictEqual_comm (a b : Value) : a.strictEqual b = b.strictEqual a := by
  rw [Bool.eq_iff_iff, strictEqual_iff, strictEqual_iff]
  constructor <;>
  · rintro (⟨rfl, hnan⟩ | ⟨m, n, ha, hb, hm, hn⟩)
    · exact .inl ⟨rfl, hnan⟩
    · exact .inr ⟨n, m, hb, ha, hn, hm⟩

theorem strictEqual_trans (hab : a.strictEqual b = true) (hbc : b.strictEqual c = true) :
    a.strictEqual c = true := by
  rw [strictEqual_iff] at *
  rcases hab with ⟨rfl, -⟩ | ⟨m, n, ha, hb, hm, hn⟩
  · exact hbc
  · rcases hbc with ⟨rfl, -⟩ | ⟨k, l, hb', hc, -, hl⟩
    · exact .inr ⟨m, n, ha, hb, hm, hn⟩
    · exact .inr ⟨m, l, ha, hc, hm, hl⟩

theorem strictEqual_self_iff : a.strictEqual a = true ↔ a ≠ .number .nan := by
  rw [strictEqual_iff]
  refine ⟨?_, fun hnan => .inl ⟨rfl, hnan⟩⟩
  rintro (⟨-, hnan⟩ | ⟨m, n, ha, -, hm, -⟩)
  · exact hnan
  · rintro rfl
    cases ha
    cases hm

theorem kind_eq_of_strictEqual (hab : a.strictEqual b = true) : a.kind = b.kind := by
  rcases strictEqual_iff.1 hab with ⟨rfl, -⟩ | ⟨m, n, rfl, rfl, -⟩ <;> rfl

theorem strictEqual_string (s t : String) : (string s).strictEqual (string t) = decide (s = t) := by
  simp [strictEqual]

/-- What strict equality says within the two types that have one value. -/
theorem strictEqual_of_isNullish (hk : a.kind = b.kind) (ha : a.isNullish = true) : a.strictEqual b = true := by
  cases a <;> cases ha <;> cases b <;> cases hk <;> rfl

theorem isNullish_eq_of_kind_eq (hk : a.kind = b.kind) : a.isNullish = b.isNullish := by
  cases a <;> cases b <;> first | rfl | cases hk

end Value

namespace Heap
variable {h : Heap} {a b : Value}

/-! ### Loose equality -/

theorem looseEqual_of_kind_eq (hk : a.kind = b.kind) : h.looseEqual a b = a.strictEqual b := by
  rw [looseEqual, if_pos hk]

theorem mixedEqual_comm (h : Heap) (a b : Value) : h.mixedEqual a b = h.mixedEqual b a := by
  unfold mixedEqual
  generalize h.comparand a b = x, h.comparand b a = y
  cases x <;> cases y <;> first | rfl | exact Number.equal_comm _ _ | simp [eq_comm]

theorem looseEqual_comm (h : Heap) (a b : Value) : h.looseEqual a b = h.looseEqual b a := by
  by_cases hk : a.kind = b.kind
  · rw [looseEqual_of_kind_eq hk, looseEqual_of_kind_eq hk.symm, Value.strictEqual_comm]
  · rw [looseEqual, looseEqual, if_neg hk, if_neg (Ne.symm hk), mixedEqual_comm, Bool.or_comm, Bool.and_comm]

theorem looseEqual_of_strictEqual (hab : a.strictEqual b = true) : h.looseEqual a b = true :=
  (looseEqual_of_kind_eq (Value.kind_eq_of_strictEqual hab)).trans hab

theorem looseEqual_of_isNullish (ha : a.isNullish = true) : h.looseEqual a b = b.isNullish := by
  by_cases hk : a.kind = b.kind
  · rw [looseEqual_of_kind_eq hk, Value.strictEqual_of_isNullish hk ha, ← Value.isNullish_eq_of_kind_eq hk, ha]
  · rw [looseEqual, if_neg hk, ha, Bool.true_or, if_pos rfl, Bool.true_and]

/-! ### Loose equality case by case -/

/-- One case of loose equality: an answer, or the operands with which it begins again. Values of one type are compared
by strict equality; a boolean is converted to a number, and a container or function that meets a number or a text to its
text. -/
def looseCase (h : Heap) (a b : Value) : Bool ⊕ Value × Value :=
  if a.kind = b.kind then .inl (a.strictEqual b)
  else if a.isNullish || b.isNullish then .inl (a.isNullish && b.isNullish)
  else
    match a, b with
    | .number m, .string _ => .inl (m.equal (h.toNumber b))
    | .string _, .number n => .inl ((h.toNumber a).equal n)
    | .bool _, b => .inr (.number (h.toNumber a), b)
    | a, .bool _ => .inr (a, .number (h.toNumber b))
    | .array _, .number _ | .array _, .string _ | .object _, .number _ | .object _, .string _
    | .function _, .number _ | .function _, .string _ | .number _, .array _ | .string _, .array _
    | .number _, .object _ | .string _, .object _ | .number _, .function _ | .string _, .function _ =>
      .inr (h.toPrimitive a, h.toPrimitive b)
    | _, _ => .inl false

/-- Loose equality, one case after the other until there is an answer. -/
inductive LooseRun (h : Heap) : Value → Value → Bool → Prop where
  | answer {a b : Value} {answer : Bool} (hcase : h.looseCase a b = .inl answer) : LooseRun h a b answer
  | again {a b a' b' : Value} {answer : Bool} (hcase : h.looseCase a b = .inr (a', b'))
    (hrun : LooseRun h a' b' answer) : LooseRun h a b answer

/-- How often a value may still be converted. -/
def conversions : Value → Nat
  | .bool _ | .array _ | .object _ | .function _ => 1
  | _ => 0

/-- What a case of loose equality may come to: the answer, or operands that have the same answer and fewer conversions
before them. -/
inductive Decides (h : Heap) (a b : Value) : Bool ⊕ Value × Value → Prop where
  | answer : Decides h a b (.inl (h.looseEqual a b))
  | again {a' b' : Value} (hsame : h.looseEqual a' b' = h.looseEqual a b)
    (hless : conversions a' + conversions b' < conversions a + conversions b) : Decides h a b (.inr (a', b'))

theorem decides_looseCase (h : Heap) (a b : Value) : h.Decides a b (h.looseCase a b) := by
  cases a <;> cases b <;>
    first
    | exact .answer
    | exact .again rfl (by simp [conversions, toPrimitive])
    | exact .again (Value.strictEqual_string _ _) (by simp [conversions, toPrimitive])

theorem looseRun_looseEqual (h : Heap) (a b : Value) : h.LooseRun a b (h.looseEqual a b) := by
  induction hn : conversions a + conversions b using Nat.strong_induction_on generalizing a b with
  | _ n ih =>
    subst hn
    have hdecides := h.decides_looseCase a b
    cases hcase : h.looseCase a b with
    | inl answer =>
      rw [hcase] at hdecides
      cases hdecides
      exact .answer hcase
    | inr operands =>
      rw [hcase] at hdecides
      cases hdecides with
      | again hsame hless => exact .again hcase (hsame ▸ ih _ hless _ _ rfl)

/-- Loose equality ends, with one answer. -/
theorem looseRun_iff {answer : Bool} : h.LooseRun a b answer ↔ answer = h.looseEqual a b := by
  constructor
  · intro hrun
    induction hrun with
    | @answer a b answer hcase =>
      have hdecides := h.decides_looseCase a b
      rw [hcase] at hdecides
      cases hdecides
      rfl
    | @again a b a' b' answer hcase _ ih =>
      have hdecides := h.decides_looseCase a b
      rw [hcase] at hdecides
      cases hdecides with
      | again hsame => exact ih.trans hsame
  · rintro rfl
    exact h.looseRun_looseEqual a b

/-! ### Both equalities -/

/-- Loose equality, taken case by case, ends with one answer; it is symmetric, holds of what is strictly equal, says
within a type what strict equality says, and `undefined` and `null` are loosely equal to each other alone. Strict
equality is symmetric and transitive, and only NaN is not equal to itself. -/
theorem looseEqual_extends_strictEqual (h : Heap) :
    (∀ a b answer, h.LooseRun a b answer ↔ answer = h.looseEqual a b) ∧
      (∀ a b, h.looseEqual a b = h.looseEqual b a) ∧
      (∀ a b, a.strictEqual b = true → h.looseEqual a b = true) ∧
      (∀ a b : Value, a.kind = b.kind → h.looseEqual a b = a.strictEqual b) ∧
      (∀ a b, a.isNullish = true → (h.looseEqual a b = true ↔ b.isNullish = true)) ∧
      (∀ a b : Value, a.strictEqual b = b.strictEqual a) ∧
      (∀ a b c : Value, a.strictEqual b = true → b.strictEqual c = true → a.strictEqual c = true) ∧
      ∀ a : Value, a.strictEqual a = true ↔ a ≠ .number .nan := by
  refine ⟨fun _ _ _ => looseRun_iff, h.looseEqual_comm, fun _ _ => looseEqual_of_strictEqual,
    fun _ _ => looseEqual_of_kind_eq, fun a b ha => ?_, Value.strictEqual_comm,
    fun _ _ _ => Value.strictEqual_trans, fun _ => Value.strictEqual_self_iff⟩
  rw [looseEqual_of_isNullish ha]

/-- An array that holds itself is empty as a text, which is zero as a number, as `false` is; and the zeros are equal
either way. -/
theorem looseEqual_extends_strictEqual_loops :
    loops.LooseRun (.bool false) (.array 0) true ∧ loops.looseEqual (.array 0) (.bool false) = true ∧
      loops.looseEqual (.number .zero) (.number Number.zero.neg) = true ∧
      loops.looseEqual .null .undefined = true := by
  obtain ⟨hends, hcomm, hextends, -, hnullish, -⟩ := looseEqual_extends_strictEqual loops
  have hconverted : loops.looseEqual (.bool false) (.array 0) = true := by decide +kernel
  exact ⟨(hends _ _ _).2 hconverted.symm, (hcomm _ _).trans hconverted, hextends _ _ (by decide),
    (hnullish _ _ rfl).2 rfl⟩

end Heap

end LatentExpr
