import LatentExpr.Eval.Process

/-!
A host that follows a script. Time is a clock that only moves when it is told to; pending values become
available at a time, or when a gate is opened; functions are of a few fixed kinds and leave their label
in a log when they are called.
-/
namespace LatentExpr

/-- What a scripted function does when it is called. -/
inductive FunctionKind where
  /-- A fresh array of the arguments. -/
  | args
  /-- The receiver. -/
  | receiver
  /-- The first argument. -/
  | first
  /-- How often the function was called so far. -/
  | count
  /-- The type of the receiver and the number of arguments. -/
  | describe
  /-- A field of the receiver. -/
  | getter
  /-- The first argument, after a delay. -/
  | defer
  /-- The outcome, after a delay. -/
  | later
  /-- The outcome, after opening a gate. -/
  | signal
  /-- The first argument called with the second as receiver and the others as arguments. -/
  | apply
  /-- The outcome. -/
  | constant
deriving DecidableEq

/-- A function of the script. The kinds that have no use for a part of it ignore the part. -/
structure ScriptedFunction where
  kind : FunctionKind
  log : Option String
  name : String
  delay : Nat
deriving DecidableEq

/-- A function with its outcome and the number of its calls. -/
structure LiveFunction where
  script : ScriptedFunction
  outcome : Outcome
  calls : Nat

/-- What a pending value waits for. -/
inductive Awaited where
  /-- A delay, which runs from the first time that the value is asked for until it is `due`. The label
  is logged when the value becomes available. -/
  | delay (ticks : Nat) (due : Option Nat) (outcome : Outcome) (log : Option String)
  | gate (name : String) (outcome : Outcome)

/-- The state of a scripted host. Entries of `awaited` belong to the pending values of a world in the
order in which they were made. -/
structure Stage where
  clock : Nat
  /-- Every time at which some pending value was found to become due. -/
  deadlines : List Nat
  /-- The gates that are open. -/
  gates : List String
  /-- The labels that were logged, the latest first. -/
  log : List String
  functions : Array LiveFunction
  awaited : Array Awaited

namespace Stage

def empty : Stage := ⟨0, [], [], [], #[], #[]⟩

/-- Log a label, if there is one. -/
def note (label : Option String) (s : Stage) : Stage := { s with log := label.toList ++ s.log }

/-- Open a gate, if it is not open. -/
def openGate (name : String) (s : Stage) : Stage :=
  if s.gates.contains name then s else { s with gates := name :: s.gates }

/-- The earliest deadline that lies ahead. -/
def nextDeadline? (s : Stage) : Option Nat := (s.deadlines.filter (s.clock < ·)).min?

end Stage

/-- A world whose host follows a script. -/
abbrev Scene := World Stage

namespace Scene

def empty : Scene := ⟨.empty, #[], .empty⟩

/-- A fresh pending value that waits for something. -/
def newPending (awaited : Awaited) (w : Scene) : Value × Scene :=
  let (id, w) := World.newPending w
  (.pending id, { w with host := { w.host with awaited := w.host.awaited.push awaited } })

/-- A fresh function. -/
def newFunction (script : ScriptedFunction) (outcome : Outcome) (w : Scene) : Value × Scene :=
  (.function (.host w.host.functions.size),
    { w with host := { w.host with functions := w.host.functions.push ⟨script, outcome, 0⟩ } })

/-- Ask what a pending value waits for whether it has come. -/
def poll (id : Nat) (w : Scene) : Option Outcome × Scene :=
  match w.host.awaited[id]? with
  | none => (none, w)
  | some (.gate name outcome) =>
    (if w.host.gates.contains name then some outcome else none, w)
  | some (.delay ticks due outcome label) =>
    let time := due.getD (w.host.clock + ticks)
    if time ≤ w.host.clock then (some outcome, { w with host := w.host.note label })
    else if due.isSome then (none, w)
    else
      let awaited := w.host.awaited.setIfInBounds id (.delay ticks (some time) outcome label)
      (none, { w with host := { w.host with awaited, deadlines := time :: w.host.deadlines } })

/-- Count a call of a function and log its label. -/
def countCall (id : Nat) (f : LiveFunction) (w : Scene) : Scene :=
  let functions := w.host.functions.setIfInBounds id { f with calls := f.calls + 1 }
  { w with host := { w.host with functions }.note f.script.log }

/-- The result of a call that the function `f`, called `calls` times by now, answers by itself. -/
def answer (f : LiveFunction) (calls : Nat) (receiver : Value) (args : List Value) (w : Scene) :
    Outcome × Scene :=
  match f.script.kind with
  | .args =>
    let (v, heap) := w.heap.newArray args.toArray
    (.ok v, { w with heap })
  | .receiver => (.ok receiver, w)
  | .first => (.ok (argument args 0), w)
  | .count => (.ok (.ofNat calls), w)
  | .describe => (.ok (.string (receiver.kind.name ++ ":" ++ toString args.length)), w)
  | .getter =>
    match receiver with
    | .object id => (.ok (((w.heap.fields id).get? f.script.name).getD .undefined), w)
    | _ => (.ok .undefined, w)
  | .defer =>
    let (v, w) := w.newPending (.delay f.script.delay none (.ok (argument args 0)) none)
    (.ok v, w)
  | .later =>
    let (v, w) := w.newPending (.delay f.script.delay none f.outcome none)
    (.ok v, w)
  | .signal => (f.outcome, { w with host := w.host.openGate f.script.name })
  | .apply => (.error (.host "apply: not a function"), w)
  | .constant => (f.outcome, w)

/-- Call a built-in method or a function of the script. A function that applies another one passes on
the rest of its arguments, so such calls come to an end. -/
def invoke (args : List Value) (callee : Callable) (receiver : Value) (w : Scene) :
    Outcome × Scene :=
  match callee with
  | .arrayMethod m =>
    let (outcome, heap) := w.heap.callArrayMethod m receiver args
    (outcome, { w with heap })
  | .stringMethod m => (w.heap.callStringMethod m receiver args, w)
  | .host id =>
    match w.host.functions[id]? with
    | none => (.ok .undefined, w)
    | some f =>
      let w := countCall id f w
      match args with
      | .function g :: rest =>
        if f.script.kind = .apply then
          match rest with
          | [] => invoke [] g .undefined w
          | first :: others => invoke others g first w
        else answer f (f.calls + 1) receiver args w
      | _ => answer f (f.calls + 1) receiver args w
termination_by args.length

end Scene

/-- The host that follows the script of its stage. -/
def Stage.host : Host Stage where
  call id receiver args w := Scene.invoke args (.host id) receiver w
  poll id w := Scene.poll id w

end LatentExpr
