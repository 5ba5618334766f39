import LatentExpr.Symbols.Bisect
import LatentExpr.Symbols.Trie

/-!
Longest match over a set of symbols. A matcher keeps its symbols in ascending order beside a table of states.
The prefix tree of the symbols is lowered into the table: a state is pushed, the states below it are pushed
after it, and only then is the first one given its edges; a chain becomes one label. An input is matched in a
loop over the table, which takes one edge at each turn and keeps what was accepted last.
-/
namespace LatentExpr

/-! ### Tables -/

/-- An edge between two states of a table. The first byte of its label is kept apart for the search. -/
structure Matcher.Transition where
  first : UInt8
  label : List UInt8
  /-- The number of the state that the edge leads to. It fits 32 bits in a table of at most 2^32 states; there
  is no bound here. -/
  target : Nat
deriving DecidableEq

/-- A state of a table. -/
structure Matcher.State where
  /-- The number of the symbol that ends there, if one does. It fits 32 bits for at most 2^32 symbols; there is
  no bound here. -/
  accept : Option Nat
  edges : List Transition
deriving DecidableEq

open Matcher (Transition State)

/-- Every edge of a prefix tree and all that is below it go to the end of a table. A state is there before
those below it and gets its edges after them. -/
def Trie.lower : Trie → Array State → List Transition × Array State
  | leaf, states => ([], states)
  | node b accept children next, states =>
    have := size_chain_le accept children
    let index := states.size
    let (below, states) :=
      (chain accept children).children.lower (states.push ⟨(chain accept children).accept, []⟩)
    let states := states.modify index fun state => { state with edges := below }
    let (beside, states) := next.lower states
    (⟨b, b :: (chain accept children).bytes, index⟩ :: beside, states)
termination_by trie => trie.size
decreasing_by all_goals simp only [size]; omega

/-- The table of a prefix tree, its root first. -/
def Trie.table (trie : Trie) : Array State :=
  let (edges, states) := trie.lower #[⟨none, []⟩]
  states.modify 0 fun state => { state with edges }

structure Matcher where
  /-- The symbols in ascending order, each once, none of them empty. -/
  symbols : List String
  /-- The table of states, the root first. -/
  states : Array State
  /-- No symbol has more bytes than this. -/
  reach : Nat
deriving DecidableEq

namespace Matcher

/-- The UTF-8 bytes of a text. -/
def bytes (text : List Char) : List UInt8 := text.flatMap String.utf8EncodeChar

/-- An ascending list with one more member, unless it is there already. -/
def insertSorted (symbol : String) : List String → List String
  | [] => [symbol]
  | first :: rest =>
    if symbol = first then first :: rest
    else if symbol < first then symbol :: first :: rest
    else first :: insertSorted symbol rest

theorem mem_insertSorted (symbol other : String) (sorted : List String) :
    other ∈ insertSorted symbol sorted ↔ other = symbol ∨ other ∈ sorted := by
  induction sorted with
  | nil => simp [insertSorted]
  | cons first rest ih =>
    unfold insertSorted
    split
    · rename_i h
      simp [h]
    · split
      · simp
      · simp [ih, or_left_comm]

/-- The matcher of some symbols, in any order and with repetitions; the empty one is left out. -/
def ofSymbols (symbols : List String) : Matcher :=
  let symbols := (symbols.filter (· ≠ "")).foldl (fun sorted s => insertSorted s sorted) []
  { symbols
    states := (Trie.build (symbols.map fun s => bytes s.toList)).table
    reach := symbols.foldl (fun reach s => max reach s.utf8ByteSize) 0 }

theorem mem_symbols_ofSymbols (symbols : List String) (symbol : String) :
    symbol ∈ (ofSymbols symbols).symbols ↔ symbol ∈ symbols ∧ symbol ≠ "" := by
  suffices ∀ (more sorted : List String),
      symbol ∈ more.foldl (fun sorted s => insertSorted s sorted) sorted ↔
        symbol ∈ sorted ∨ symbol ∈ more by
    simp [ofSymbols, this]
  intro more
  induction more with
  | nil => simp
  | cons first rest ih =>
    intro sorted
    simp only [List.foldl_cons, ih, mem_insertSorted, List.mem_cons]
    rw [or_assoc, or_left_comm]

/-! ### Matching -/

/-- What is accepted last on the way of an input from a state on, `best` if nothing is. There is no answer if
an edge leads out of the table or has an empty label, which would be taken over and over. -/
def walk? (states : Array State) (state : State) (best : Option Nat) (input : List UInt8) : Option (Option Nat) :=
  let best := state.accept <|> best
  match input with
  | [] => some best
  | b :: after =>
    match bisect? (fun edge : Transition => compare edge.first b) state.edges with
    | none => some best
    | some edge =>
      match edge.label.isPrefixOf? (b :: after) with
      | none => some best
      | some rest =>
        match states[edge.target]? with
        | none => none
        | some state => if rest.length ≤ after.length then walk? states state best rest else none
termination_by input.length

/-- The symbol that the walk from the root ends with. There is no answer if it leaves the table or the
symbols. -/
def scan? (m : Matcher) (input : List UInt8) : Option (Option String) :=
  match m.states[0]? with
  | none => some none
  | some root =>
    match walk? m.states root none input with
    | none => none
    | some none => some none
    | some (some index) => m.symbols[index]?.map some

/-- The longest symbol that begins a byte string. -/
def longestMatch? (m : Matcher) (input : List UInt8) : Option String := (m.scan? input).join

/-- The longest symbol that begins a text. Only as many characters are looked at as a symbol can
have. -/
def longestIn? (m : Matcher) (text : List Char) : Option String :=
  m.longestMatch? (bytes (text.take m.reach))

/-- Whether a text is one of the symbols, by binary search. -/
def contains (m : Matcher) (symbol : String) : Bool := (bisect? (compare · symbol) m.symbols).isSome

def isEmpty (m : Matcher) : Bool := m.symbols.isEmpty

/-- The number of states, the root included. -/
def stateCount (m : Matcher) : Nat := m.states.size

end Matcher

end LatentExpr
