/-!
Lines and columns. Both count from one, a column counts characters, and a tab counts as four.
-/
namespace LatentExpr

structure Location where
  line : Nat
  column : Nat
deriving DecidableEq

namespace Location

/-- The location of the first character of a source. -/
def start : Location := ⟨1, 1⟩

/-- The location after a character. -/
def after (l : Location) (c : Char) : Location :=
  if c = '\n' then ⟨l.line + 1, 1⟩
  else if c = '\t' then ⟨l.line, l.column + 4⟩
  else ⟨l.line, l.column + 1⟩

/-- What is left of a text without the characters that start before a byte offset. -/
def dropBefore : Nat → List Char → List Char
  | _, [] => []
  | 0, text => text
  | offset + 1, c :: rest => dropBefore (offset + 1 - c.utf8Size) rest

/-- The characters of a text that start before a byte offset. -/
def takeBefore : Nat → List Char → List Char
  | _, [] => []
  | 0, _ => []
  | offset + 1, c :: rest => c :: takeBefore (offset + 1 - c.utf8Size) rest

theorem takeBefore_append_dropBefore (offset : Nat) (text : List Char) :
    takeBefore offset text ++ dropBefore offset text = text := by
  fun_induction takeBefore offset text with
  | case1 => simp [dropBefore]
  | case2 text => cases text <;> rfl
  | case3 offset c rest ih => simp [dropBefore, ih]

/-- The location of byte offset `stop`, counted on from the start of line `line` at offset
`lineStart`. -/
def countFrom (source : List Char) (line lineStart stop : Nat) : Location :=
  (takeBefore (stop - lineStart) (dropBefore lineStart source)).foldl after ⟨line, 1⟩

/-- The location of a byte offset, counted from the start of the source. -/
def find (source : List Char) (offset : Nat) : Location := countFrom source 1 0 offset

def toText (l : Location) : String := s!"line: {l.line}, column: {l.column}"

end Location

/-- A line and the byte offset at which it starts. -/
structure LineMark where
  line : Nat
  start : Nat
deriving DecidableEq

namespace LineMark

/-- The first line. -/
def first : LineMark := ⟨1, 0⟩

/-- The mark moved to the next line, which starts at `offset`, unless it was moved there already. -/
def note (mark : LineMark) (offset : Nat) : LineMark :=
  if mark.start < offset then ⟨mark.line + 1, offset⟩ else mark

/-- The mark after a text that starts at `offset`, moved past each line feed. -/
def through (mark : LineMark) (offset : Nat) : List Char → LineMark
  | [] => mark
  | c :: rest =>
    through (if c = '\n' then mark.note (offset + 1) else mark) (offset + c.utf8Size) rest

/-- The location of an offset: counted on from the mark if it lies behind the mark, from the start of
the source otherwise. -/
def locate (mark : LineMark) (source : List Char) (offset : Nat) : Location :=
  if mark.start ≤ offset then Location.countFrom source mark.line mark.start offset
  else Location.find source offset

end LineMark

end LatentExpr
