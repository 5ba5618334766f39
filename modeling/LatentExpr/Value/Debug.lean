import LatentExpr.Text.Quoted
import LatentExpr.Value.Heap

/-!
The structure of a value as text. A container met again inside itself is shown as circular.
-/
namespace LatentExpr.Heap

/-- The structure of a value inside the containers of `track`. `fuel` bounds the depth. -/
def debugWithin (h : Heap) : Nat → List Value → Value → String
  | 0, _, _ => ""
  | fuel + 1, track, v =>
    match v with
    | .undefined => "undefined"
    | .null => "null"
    | .bool b => if b then "true" else "false"
    | .number n => n.toText
    | .string s => Text.quoted s
    | .array id =>
      if track.contains v then "[Circular]"
      else
        "[" ++ String.intercalate ", "
          ((h.elements id).toList.map fun x => h.debugWithin fuel (v :: track) x) ++ "]"
    | .object id =>
      if track.contains v then "[Circular]"
      else
        "\x7b" ++ String.intercalate ", "
          ((h.fields id).map fun (key, x) => key ++ ": " ++ h.debugWithin fuel (v :: track) x) ++ "\x7d"
    | .function _ => "[Function]"
    | .pending _ => "[Pending]"

/-- The structure of a value as text. -/
def debugText (h : Heap) (v : Value) : String := h.debugWithin (h.size + 2) [] v

end LatentExpr.Heap
