import LatentExpr.Text.CaseContext
import LatentExpr.Text.CaseForm

/-!
Upper and lower case of whole texts. Every character is replaced by its form, and a capital sigma at
the end of a word takes its final form.
-/
namespace LatentExpr.Text

/-- Whether the first character that is not case-ignorable is a cased one. -/
def reachesCased (text : List Char) : Bool :=
  ((text.dropWhile caseIgnorable.contains).head?.map cased.contains).getD false

/-- Whether a sigma between two texts ends a word: letters before it, none after it. `before` is
reversed, its first character being the one next to the sigma. -/
def endsWord (before after : List Char) : Bool := reachesCased before && !reachesCased after

def toUpper (text : List Char) : List Char := text.flatMap upperForm

/-- The lower case of `text` that follows the reversed text `before`. -/
def toLowerAfter (before : List Char) : List Char → List Char
  | [] => []
  | c :: rest =>
    let form := if c = 'Σ' then (if endsWord before rest then ['ς'] else ['σ']) else lowerForm c
    form ++ toLowerAfter (c :: before) rest

def toLower (text : List Char) : List Char := toLowerAfter [] text

end LatentExpr.Text
