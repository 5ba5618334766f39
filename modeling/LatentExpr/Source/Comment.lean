/-!
The ends of comments. Offsets are measured by a width of characters, so the same search serves a text
in characters and one in bytes.
-/
namespace LatentExpr.Comment

/-- The number of characters in a text, each counted with its width. -/
def measure (width : Char → Nat) (text : List Char) : Nat :=
  text.foldr (fun c total => width c + total) 0

theorem measure_cons (width : Char → Nat) (c : Char) (text : List Char) :
    measure width (c :: text) = width c + measure width text := rfl

theorem measure_append (width : Char → Nat) (a b : List Char) :
    measure width (a ++ b) = measure width a + measure width b := by
  induction a with
  | nil => exact (Nat.zero_add _).symm
  | cons c rest ih => rw [List.cons_append, measure_cons, measure_cons, ih, Nat.add_assoc]

/-- The rest of a line and what follows it, from its line feed on. -/
def splitLine (text : List Char) : List Char × List Char :=
  (text.takeWhile (· != '\n'), text.dropWhile (· != '\n'))

theorem splitLine_append (text : List Char) : (splitLine text).1 ++ (splitLine text).2 = text :=
  List.takeWhile_append_dropWhile

/-- The text before and after the first `*/`. -/
def splitClose? : List Char → Option (List Char × List Char)
  | [] => none
  | '*' :: '/' :: rest => some ([], rest)
  | c :: rest => (splitClose? rest).map fun (body, after) => (c :: body, after)

theorem eq_append_of_splitClose? {text body after : List Char}
    (h : splitClose? text = some (body, after)) : text = body ++ '*' :: '/' :: after := by
  fun_induction splitClose? text generalizing body with
  | case1 => simp at h
  | case2 rest =>
    obtain ⟨rfl, rfl⟩ : [] = body ∧ rest = after := by simpa using h
    rfl
  | case3 c rest _ ih =>
    obtain ⟨⟨inner, tail⟩, hs, he⟩ := Option.map_eq_some_iff.1 h
    obtain ⟨rfl, rfl⟩ : c :: inner = body ∧ tail = after := by simpa using he
    rw [ih hs]
    rfl

/-- A comment that is closed: where it ends, how many line feeds it holds, and where its last line
starts if it holds any. -/
structure Block where
  stop : Nat
  newlines : Nat
  lastLineStart : Option Nat
deriving DecidableEq

/-- The block comment whose `body` starts at an offset. -/
def Block.ofBody (width : Char → Nat) (offset : Nat) (body : List Char) : Block :=
  let stop := offset + measure width body
  { stop := stop + width '*' + width '/'
    newlines := body.count '\n'
    lastLineStart :=
      if body.contains '\n' then some (stop - measure width (body.reverse.takeWhile (· != '\n')))
      else none }

end LatentExpr.Comment
