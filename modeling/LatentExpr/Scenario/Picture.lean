import LatentExpr.Eval.World

/-!
Pictures of values: trees that show a value with its contents, cut off where it contains itself, where
it is nested too deeply, and in the middle of long arrays.
-/
namespace LatentExpr

inductive Picture where
  | undefined
  | null
  | bool (b : Bool)
  | number (n : Number)
  | string (s : String)
  | array (elements : List Picture)
  /-- An array of more than sixty-four elements, with the first and the last four. -/
  | longArray (length : Nat) (first last : List Picture)
  | object (entries : List (String × Picture))
  | function
  /-- A pending value whose outcome is not known. -/
  | pending
  | resolved (value : Picture)
  | rejected (message : String)
  /-- A container inside itself. -/
  | cycle
  /-- A container inside twenty-four others. -/
  | deep

namespace World

variable {σ : Type}

/-- The picture of a value inside the containers of `track`. `fuel` bounds the depth. -/
def pictureWithin (w : World σ) : Nat → List Value → Value → Picture
  | 0, _, _ => .deep
  | fuel + 1, track, v =>
    match v with
    | .undefined => .undefined
    | .null => .null
    | .bool b => .bool b
    | .number n => .number n
    | .string s => .string s
    | .function _ => .function
    | .pending id =>
      match w.outcome? id with
      | none => .pending
      | some (.ok v) => .resolved (w.pictureWithin fuel track v)
      | some (.error e) => .rejected e.message
    | .array id =>
      if track.contains v then .cycle
      else if 24 ≤ track.length then .deep
      else
        let elements := w.heap.elements id
        let show' (xs : Array Value) : List Picture :=
          xs.toList.map fun x => w.pictureWithin fuel (v :: track) x
        if 64 < elements.size then
          .longArray elements.size (show' (elements.extract 0 4))
            (show' (elements.extract (elements.size - 4) elements.size))
        else .array (show' elements)
    | .object id =>
      if track.contains v then .cycle
      else if 24 ≤ track.length then .deep
      else .object ((w.heap.fields id).map fun (key, x) => (key, w.pictureWithin fuel (v :: track) x))

/-- The picture of a value. At most twenty-four containers and, between any two of them, every pending
value once are inside each other. -/
def picture (w : World σ) (v : Value) : Picture :=
  w.pictureWithin (26 * (w.outcomes.size + 1)) [] v

end World

end LatentExpr
