import LatentExpr.Scenario.Stage

/-!
Recipes for values: descriptions from which the values of a scenario are made. A recipe can give a value
a label and use it again under that label, so containers can be shared and can contain themselves.
-/
namespace LatentExpr

inductive Recipe where
  | undefined
  | null
  | bool (b : Bool)
  | number (n : Number)
  | string (s : String)
  | array (elements : List Recipe)
  | object (entries : List (String × Recipe))
  /-- A value with a label. A container has its label while its contents are made. -/
  | define (label : String) (recipe : Recipe)
  /-- The value with a label. -/
  | reference (label : String)
  /-- A value available after a delay; a message makes it a failure. -/
  | delayed (ticks : Nat) (failure : Option String) (value : Recipe) (log : Option String)
  /-- A value available once a gate is open; a message makes it a failure. -/
  | gated (name : String) (failure : Option String) (value : Recipe)
  /-- A function with its outcome, a failure if there is a message. -/
  | function (script : ScriptedFunction) (failure : Option String) (value : Recipe)

/-- A scene and the values that have labels. -/
structure Setup where
  scene : Scene
  labels : List (String × Value)

namespace Setup

def empty : Setup := ⟨.empty, []⟩

/-- Change the scene. -/
def change {α : Type} (f : Scene → α × Scene) : StateM Setup α := fun s =>
  let (a, scene) := f s.scene
  (a, { s with scene })

def changeHeap {α : Type} (f : Heap → α × Heap) : StateM Setup α :=
  change fun w =>
    let (a, heap) := f w.heap
    (a, { w with heap })

/-- Give a value a label. -/
def label (label : String) (v : Value) : StateM Setup Unit :=
  modify fun s => { s with labels := (label, v) :: s.labels }

/-- An outcome with a value, or a failure if there is a message. -/
def outcome (failure : Option String) (v : Value) : Outcome :=
  match failure with
  | some message => .error (.host message)
  | none => .ok v

end Setup

open Setup in
mutual

/-- Make the value of a recipe. -/
def Recipe.make : Recipe → StateM Setup Value
  | .undefined => return .undefined
  | .null => return .null
  | .bool b => return .bool b
  | .number n => return .number n
  | .string s => return .string s
  | .array elements => do
    let vs ← makeAll elements
    changeHeap (·.newArray vs.toArray)
  | .object entries => do
    let fields ← makeEntries entries
    changeHeap (·.newObject (.ofEntries fields))
  | .define name (.array elements) => do
    let v ← changeHeap (·.newArray #[])
    label name v
    let vs ← makeAll elements
    if let .array id := v then changeHeap fun h => ((), h.modifyArray id fun _ => vs.toArray)
    return v
  | .define name (.object entries) => do
    let v ← changeHeap (·.newObject [])
    label name v
    let fields ← makeEntries entries
    if let .object id := v then changeHeap fun h => ((), h.modifyObject id fun _ => .ofEntries fields)
    return v
  | .define name recipe => do
    let v ← recipe.make
    label name v
    return v
  | .reference name => return ((← get).labels.lookup name).getD .undefined
  | .delayed ticks failure value log => do
    let v ← value.make
    change (Scene.newPending (.delay ticks none (outcome failure v) log))
  | .gated name failure value => do
    let v ← value.make
    change (Scene.newPending (.gate name (outcome failure v)))
  | .function script failure value => do
    let v ← value.make
    change (Scene.newFunction script (outcome failure v))
termination_by structural r => r

/-- Make the values of some recipes in order. -/
def makeAll : List Recipe → StateM Setup (List Value)
  | [] => return []
  | r :: rest => return (← r.make) :: (← makeAll rest)
termination_by structural rs => rs

/-- Make the values of some entries in order. -/
def makeEntries : List (String × Recipe) → StateM Setup (List (String × Value))
  | [] => return []
  | e :: rest => do
    let entry ← makeEntry e
    return entry :: (← makeEntries rest)
termination_by structural es => es

/-- Make the value of an entry. -/
def makeEntry : String × Recipe → StateM Setup (String × Value)
  | (key, recipe) => return (key, ← recipe.make)
termination_by structural e => e

end

end LatentExpr
