/-!
Ranges of a source in bytes.
-/
namespace LatentExpr

/-- A range of byte offsets, the end excluded. -/
structure Span where
  start : Nat
  stop : Nat
deriving DecidableEq

namespace Span

/-- The largest offset that a span can hold. -/
def limit : Nat := 4294967295

/-- The span between two offsets, each cut off at the limit. -/
def between (start stop : Nat) : Span := ⟨min start limit, min stop limit⟩

/-- The empty span at the start of a source. -/
instance : Inhabited Span := ⟨⟨0, 0⟩⟩

def toText (s : Span) : String := s!"{s.start}..{s.stop}"

end Span

end LatentExpr
