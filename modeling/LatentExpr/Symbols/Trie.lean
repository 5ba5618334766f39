/-!
A prefix tree of byte strings, with one byte on each edge. Where a key ends, its index in the list of keys
is accepted. A run of edges through states that neither accept nor branch is a chain, which a table of states
takes as one edge.
-/
namespace LatentExpr

/-- The edges that leave one state, in ascending order of their bytes: the first edge, what its state accepts
and the edges below it, and the edges beside it. -/
inductive Trie where
  | leaf
  | node (byte : UInt8) (accept : Option Nat) (children next : Trie)

namespace Trie

def size : Trie → Nat
  | leaf => 0
  | node _ _ children next => children.size + next.size + 1

/-! ### Building -/

/-- An edge to a new state for each byte of a key, before some siblings. -/
def path (index : Nat) (next : Trie) (b : UInt8) : List UInt8 → Trie
  | [] => node b (some index) leaf next
  | c :: key => node b none (path index leaf c key) next

/-- The tree with one more key, its first byte given apart. -/
def insert (index : Nat) (b : UInt8) (key : List UInt8) : Trie → Trie
  | leaf => path index leaf b key
  | node c accept children next =>
    if b = c then
      match key with
      | [] => node c (some index) children next
      | d :: key => node c accept (children.insert index d key) next
    else if b < c then path index (node c accept children next) b key
    else node c accept children (next.insert index b key)

/-- The tree with one more key that is not empty. -/
def enter (trie : Trie) (key : List UInt8) (index : Nat) : Trie :=
  match key with
  | [] => trie
  | b :: key => trie.insert index b key

def build (keys : List (List UInt8)) : Trie :=
  keys.zipIdx.foldl (fun trie (key, index) => trie.enter key index) leaf

/-! ### Chains -/

/-- What a path through states that neither accept nor branch comes to: its bytes, and what the state at
its end accepts and the edges that leave that one. -/
structure Chain where
  bytes : List UInt8
  accept : Option Nat
  children : Trie

/-- The path on from a state that has one edge and accepts nothing. -/
def chain : Option Nat → Trie → Chain
  | none, node b accept children leaf =>
    let rest := chain accept children
    { rest with bytes := b :: rest.bytes }
  | accept, children => ⟨[], accept, children⟩

theorem size_chain_le (accept : Option Nat) (children : Trie) :
    (chain accept children).children.size ≤ children.size := by
  fun_induction chain accept children with
  | case1 b accept children rest ih =>
    rw [size]
    exact Nat.le_trans ih (Nat.le_trans (Nat.le_add_right ..) (Nat.le_succ _))
  | case2 => exact Nat.le_refl _

end Trie

end LatentExpr
