import LatentExpr.Symbols.Matcher

/-!
Tables of symbols in named groups. Every group has a matcher of its own, and one more matcher holds
the symbols of all groups.
-/
namespace LatentExpr

structure SymbolTable where
  groups : List (String × Matcher)
  all : Matcher
deriving DecidableEq

namespace SymbolTable

/-- The name under which the union of all groups is found. -/
def allName : String := "__all__"

/-- Groups with one definition more. A group that is there already keeps its place and takes the new
symbols. -/
def define (name : String) (matcher : Matcher) :
    List (String × Matcher) → List (String × Matcher)
  | [] => [(name, matcher)]
  | (other, old) :: rest =>
    if other = name then (name, matcher) :: rest else (other, old) :: define name matcher rest

/-- The table of groups given by name and symbols. -/
def ofGroups (definitions : List (String × List String)) : SymbolTable :=
  let groups := definitions.foldl (fun gs (name, symbols) => define name (.ofSymbols symbols) gs) []
  { groups, all := .ofSymbols (groups.flatMap fun g => g.2.symbols) }

/-- The matcher of a group, or the union. -/
def group? (t : SymbolTable) (name : String) : Option Matcher :=
  if name = allName then some t.all else t.groups.lookup name

/-- The names of the groups in the order they were first defined. -/
def names (t : SymbolTable) : List String := t.groups.map Prod.fst

end SymbolTable

end LatentExpr
