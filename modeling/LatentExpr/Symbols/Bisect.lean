/-!
Binary search. A window of a list is halved until one place is left, and the member there is compared once
more. In a list in order the search finds what it looks for (`bisect?_eq_some_iff`); in any other list it
may miss it.
-/
namespace LatentExpr

section
variable {α : Type} (order : α → Ordering) (xs : List α)

/-- The place that is left of a window of `size` places from `base` on. `order` says on which side of what is
looked for a member stands. -/
def bisectWithin (base size : Nat) : Nat :=
  if 1 < size then
    if xs[base + size / 2]?.any (order · = .gt) then bisectWithin base (size - size / 2)
    else bisectWithin (base + size / 2) (size - size / 2)
  else base
termination_by size

/-- The member that is what `order` looks for. -/
def bisect? : Option α := xs[bisectWithin order xs 0 xs.length]?.filter (order · = .eq)

/-- Of two members the first stands before what is looked for or the second behind it. -/
def InOrder : Prop := xs.Pairwise fun x y => order x = .lt ∨ order y = .gt

end

section
variable {α : Type} {order : α → Ordering} {xs : List α} {i : Nat}

/-- One look tells on which side of a place a member is that is looked for. -/
theorem InOrder.any_gt_iff (h : InOrder order xs) (hi : i < xs.length) (heq : order xs[i] = .eq) {middle : Nat}
    (hmiddle : middle < xs.length) : xs[middle]?.any (order · = .gt) = true ↔ i < middle := by
  have hpair := List.pairwise_iff_getElem.1 h
  simp only [List.getElem?_eq_getElem hmiddle, Option.any_some, decide_eq_true_eq]
  constructor
  · intro hgt
    apply Nat.lt_of_not_le
    intro hle
    rcases Nat.lt_or_eq_of_le hle with hlt | rfl
    · simpa [hgt, heq] using hpair middle i hmiddle hi hlt
    · simp [hgt] at heq
  · intro hlt
    simpa [heq] using hpair i middle hi hmiddle hlt

/-- A window that has the place of a member that is looked for keeps it to the end. -/
theorem InOrder.bisectWithin_eq (h : InOrder order xs) (hi : i < xs.length) (heq : order xs[i] = .eq)
    {base size : Nat} (hwindow : base + size ≤ xs.length) (hbase : base ≤ i) (hsize : i < base + size) :
    bisectWithin order xs base size = i := by
  fun_induction bisectWithin order xs base size with
  | case1 base size hwide hgt ih =>
    have := (h.any_gt_iff hi heq (by omega)).1 hgt
    exact ih (by omega) hbase (by omega)
  | case2 base size hwide hgt ih =>
    have := mt (h.any_gt_iff hi heq (by omega)).2 hgt
    exact ih (by omega) (by omega) (by omega)
  | case3 base size hnarrow => omega

theorem InOrder.bisect?_eq_some_iff (h : InOrder order xs) {x : α} :
    bisect? order xs = some x ↔ x ∈ xs ∧ order x = .eq := by
  simp only [bisect?, Option.filter_eq_some_iff, decide_eq_true_eq]
  constructor
  · intro hx
    exact ⟨List.mem_of_getElem? hx.1, hx.2⟩
  · intro hx
    obtain ⟨i, hi, rfl⟩ := List.getElem_of_mem hx.1
    have hplace : bisectWithin order xs 0 xs.length = i :=
      h.bisectWithin_eq hi hx.2 (by omega) (Nat.zero_le i) (by omega)
    exact ⟨by rw [hplace, List.getElem?_eq_getElem hi], hx.2⟩

theorem InOrder.bisect?_eq_none_iff (h : InOrder order xs) :
    bisect? order xs = none ↔ ∀ x ∈ xs, order x ≠ .eq := by
  simp only [Option.eq_none_iff_forall_ne_some, ne_eq, h.bisect?_eq_some_iff, not_and]

end

end LatentExpr
