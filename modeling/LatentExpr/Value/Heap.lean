import LatentExpr.Value.Error

/-!
The containers of a world. Arrays and objects are numbered separately in the order in which they were
made, and a number that is not in use reads as an empty container.
-/
namespace LatentExpr

/-- The fields of an object in the order in which their keys were first inserted. -/
abbrev Fields := List (String × Value)

namespace Fields

def get? (fields : Fields) (key : String) : Option Value := fields.lookup key

/-- Fields with a value under a key. A key that is there already keeps its place. -/
def insert (key : String) (value : Value) : Fields → Fields
  | [] => [(key, value)]
  | (other, old) :: rest =>
    if other = key then (key, value) :: rest else (other, old) :: insert key value rest

theorem get?_cons (field : String × Value) (rest : Fields) (key : String) :
    get? (field :: rest) key = if field.1 = key then some field.2 else get? rest key := by
  show List.lookup key (field :: rest) = _
  by_cases h : field.1 = key
  · rw [if_pos h, ← h, List.lookup_cons_self]
  · rw [if_neg h, List.lookup_cons, beq_false_of_ne (Ne.symm h)]
    rfl

theorem get?_insert_self (fields : Fields) (key : String) (value : Value) :
    (insert key value fields).get? key = some value := by
  induction fields with
  | nil => simp [insert, get?_cons]
  | cons field rest ih => by_cases h : field.1 = key <;> simp [insert, get?_cons, h, ih]

theorem get?_insert_of_ne {key other : String} (h : key ≠ other) (fields : Fields) (value : Value) :
    (insert key value fields).get? other = fields.get? other := by
  induction fields with
  | nil => simp [insert, get?_cons, h]
  | cons field rest ih =>
    by_cases hk : field.1 = key
    · simp [insert, get?_cons, hk, h]
    · simp [insert, get?_cons, hk, ih]

/-- A key that is there keeps its place, and a new one comes last. -/
theorem keys_insert (fields : Fields) (key : String) (value : Value) :
    (insert key value fields).map Prod.fst =
      if key ∈ fields.map Prod.fst then fields.map Prod.fst else fields.map Prod.fst ++ [key] := by
  induction fields with
  | nil => rfl
  | cons field rest ih =>
    by_cases h : field.1 = key
    · simp [insert, h]
    · simp only [insert, h, if_false, List.map_cons, ih, List.mem_cons, Ne.symm h, false_or]
      split <;> rfl

/-- The fields of some entries, inserted one after the other. -/
def ofEntries (entries : List (String × Value)) : Fields :=
  entries.foldl (fun fields (key, value) => insert key value fields) []

end Fields

structure Heap where
  arrays : Array (Array Value)
  objects : Array Fields

namespace Heap

def empty : Heap := ⟨#[], #[]⟩

/-- The number of containers. -/
def size (h : Heap) : Nat := h.arrays.size + h.objects.size

def elements (h : Heap) (id : Nat) : Array Value := h.arrays.getD id #[]

def fields (h : Heap) (id : Nat) : Fields := h.objects.getD id []

/-- A fresh array. -/
def newArray (h : Heap) (elements : Array Value) : Value × Heap :=
  (.array h.arrays.size, { h with arrays := h.arrays.push elements })

/-- A fresh object. -/
def newObject (h : Heap) (fields : Fields) : Value × Heap :=
  (.object h.objects.size, { h with objects := h.objects.push fields })

def modifyArray (h : Heap) (id : Nat) (change : Array Value → Array Value) : Heap :=
  { h with arrays := h.arrays.modify id change }

def modifyObject (h : Heap) (id : Nat) (change : Fields → Fields) : Heap :=
  { h with objects := h.objects.modify id change }

theorem elements_modifyArray_self {h : Heap} {id : Nat} (hid : id < h.arrays.size)
    (change : Array Value → Array Value) :
    (h.modifyArray id change).elements id = change (h.elements id) := by
  simp [elements, modifyArray, Array.getElem_modify, hid]

theorem elements_modifyArray_of_ne (h : Heap) {id other : Nat} (hne : id ≠ other)
    (change : Array Value → Array Value) :
    (h.modifyArray id change).elements other = h.elements other := by
  simp [elements, modifyArray, Array.getElem?_modify, hne]

theorem fields_modifyObject_self {h : Heap} {id : Nat} (hid : id < h.objects.size)
    (change : Fields → Fields) :
    (h.modifyObject id change).fields id = change (h.fields id) := by
  simp [fields, modifyObject, Array.getElem_modify, hid]

theorem fields_modifyObject_of_ne (h : Heap) {id other : Nat} (hne : id ≠ other)
    (change : Fields → Fields) :
    (h.modifyObject id change).fields other = h.fields other := by
  simp [fields, modifyObject, Array.getElem?_modify, hne]

/-! ### Arrays -/

/-- The longest that an array may get by writing to an index or to its length. -/
def maxLength : Nat := 1048576

/-- The largest index and the largest length that can be written down. -/
def maxIndex : Nat := 18446744073709551615

/-- Elements cut or filled up with `undefined` to a length. -/
def resize (elements : Array Value) (length : Nat) : Array Value :=
  elements.shrink length ++ Array.replicate (length - elements.size) .undefined

theorem size_resize (elements : Array Value) (length : Nat) :
    (resize elements length).size = length := by
  simp only [resize, Array.size_append, Array.size_shrink, Array.size_replicate]
  omega

/-- Store a value at an index. An array that is too short is filled up before it. -/
def setElement (h : Heap) (id index : Nat) (value : Value) : Except EvalError Heap :=
  if index < (h.elements id).size then
    .ok (h.modifyArray id fun elements => elements.setIfInBounds index value)
  else
    let length := min (index + 1) maxIndex
    if maxLength < length then .error (.invalidArrayLength (toString length))
    else .ok (h.modifyArray id fun elements => (resize elements index).push value)

/-- Append a value. -/
def push (h : Heap) (id : Nat) (value : Value) : Heap :=
  h.modifyArray id fun elements => elements.push value

/-- Cut an array or fill it up with `undefined`. -/
def setLength (h : Heap) (id length : Nat) : Except EvalError Heap :=
  if maxLength < length then .error (.invalidArrayLength (toString length))
  else .ok (h.modifyArray id fun elements => resize elements length)

/-! ### Objects -/

def setField (h : Heap) (id : Nat) (key : String) (value : Value) : Heap :=
  h.modifyObject id (Fields.insert key value)

end Heap

end LatentExpr
