/-!
The value of digits in a base. `value` says what it is, digit by digit; `join` computes it by joining
neighbours to digits in the square of the base, so that the numbers it multiplies are of one size.
-/
namespace LatentExpr.Digits

/-- The value of digits in a base, the least significant one first. -/
def value (base : Nat) (digits : List Nat) : Nat := digits.foldr (fun d rest => d + base * rest) 0

/-- Neighbouring digits joined to digits in the square of the base, behind the reversed `joined`. -/
def pairUp (base : Nat) (joined : List Nat) : List Nat → List Nat
  | low :: high :: rest => pairUp base ((low + base * high) :: joined) rest
  | [last] => (last :: joined).reverse
  | [] => joined.reverse

/-- The value of digits in a base after some rounds of joining neighbours. -/
def join (base : Nat) : Nat → List Nat → Nat
  | 0, digits => value base digits
  | rounds + 1, digits => join (base * base) rounds (pairUp base [] digits)

theorem value_reverse (base : Nat) (digits : List Nat) :
    value base digits.reverse = digits.foldl (fun rest d => d + base * rest) 0 :=
  List.foldr_reverse

theorem value_pairUp (base : Nat) (joined digits : List Nat) :
    value (base * base) (pairUp base joined digits) =
      joined.foldl (fun rest d => d + base * base * rest) (value base digits) := by
  fun_induction pairUp base joined digits with
  | case1 joined low high rest ih =>
    rw [ih, List.foldl_cons]
    simp only [value, List.foldr_cons, Nat.mul_add, Nat.mul_assoc, Nat.add_assoc]
  | case2 joined last => simp [value]
  | case3 joined => simp [value]

theorem join_eq_value (base rounds : Nat) (digits : List Nat) :
    join base rounds digits = value base digits := by
  induction rounds generalizing base digits with
  | zero => rfl
  | succ rounds ih => rw [join, ih, value_pairUp, List.foldl_nil]

end LatentExpr.Digits
