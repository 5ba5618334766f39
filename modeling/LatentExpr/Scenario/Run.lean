import LatentExpr.Engine.Builder
import LatentExpr.Eval.Interpreter
import LatentExpr.Parser.Basic
import LatentExpr.Scenario.Meaning
import LatentExpr.Scenario.Picture
import LatentExpr.Scenario.Recipe

/-!
Scenarios: sources evaluated one after the other against the same receiver and environment, on a scripted
host whose clock moves only when an evaluation waits.
-/
namespace LatentExpr

/-- An engine configured with meanings from a script. -/
abbrev ScriptedEngine := Engine Stage

/-- A request to configure an engine with a meaning from a script. -/
inductive EngineRequest where
  | binary (group : OperatorGroup) (symbol : String) (script : BinaryScript)
  | unary (symbol : String) (script : UnaryScript)
  | remove (group : OperatorGroup) (symbol : String)

/-- The configuration after a request. -/
def EngineBuilder.request (b : EngineBuilder Stage) : EngineRequest → EngineBuilder Stage
  | .binary group symbol script => b.binary group symbol (script.meaning symbol)
  | .unary symbol script => b.unary symbol (script.meaning symbol)
  | .remove group symbol => b.remove group symbol

/-- The engine that some requests configure. -/
def ScriptedEngine.ofRequests (requests : List EngineRequest) : Except ConfigError ScriptedEngine :=
  (requests.foldl EngineBuilder.request .start).build

namespace Scene

/-- Poll a process until it ends, moving the clock to the next deadline whenever it waits and no gate
was opened meanwhile. `none` if it waits and no deadline lies ahead. `fuel` bounds the number of
polls. -/
def await (s : Setting Stage) : Nat → Process → Scene → Option Outcome × Scene
  | 0, _, w => (none, w)
  | fuel + 1, p, w =>
    match p.poll s w with
    | (.finished v, w) => (some (.ok v), w)
    | (.failed e, w) => (some (.error e), w)
    | (.waiting rest, after) =>
      if w.host.gates.length < after.host.gates.length then await s fuel rest after
      else
        match after.host.nextDeadline? with
        | some time => await s fuel rest { after with host := { after.host with clock := time } }
        | none => (none, after)

/-- A number of polls that is enough for a source: each but the last one opens a gate, which a function
has to do, or reaches the deadline of another pending value, which was there before or comes from a call
that the source makes. -/
def pollBudget (w : Scene) (source : String) : Nat :=
  w.outcomes.size + w.host.functions.size + source.length + 2

end Scene

/-- How evaluations are awaited. -/
inductive Mode where
  /-- Poll once; what waits then, or is pending then, is awaited as a pending value. -/
  | invoke
  /-- Await the evaluation. -/
  | evaluate
  /-- Read a source with the default engine and await its evaluation, all at once: no expression is
  kept. -/
  | default
deriving DecidableEq

inductive Step where
  | source (text : String)
  /-- Evaluate the expression of an earlier step again. -/
  | again (step : Nat)
  /-- Compare the values of two earlier steps; the value is the list of both comparisons, the strict
  and the structural one. -/
  | same (first second : Nat)
  /-- Store a value in what a source denotes. -/
  | write (target : String) (value : Recipe)

/-- What a step answers. -/
inductive Answer where
  | value (p : Picture)
  | failed (e : EvalError)
  | unparsed (e : ParseError)
  /-- The evaluation waits for something that never comes. -/
  | deadlock

/-- A step's answer and what was seen meanwhile: how far the clock moved, whether the evaluation was
suspended, the labels that were logged, and the environment at the end. -/
structure Row where
  answer : Answer
  ticks : Nat
  suspended : Bool
  log : List String
  environment : Picture

/-- A scenario under way. Each step that is over left its source and expression, if any was kept, and its
value, `undefined` if it failed. -/
structure Scenario where
  mode : Mode
  engine : ScriptedEngine
  scope : Scope
  setup : Setup
  expressions : Array (Option (String × Expr))
  values : Array Value

namespace Scenario

/-- The engine that sources are read and evaluated with. Only what is written to is always read with the
configured one. -/
def sourceEngine (s : Scenario) : ScriptedEngine := if s.mode = .default then .default else s.engine

/-- Await an expression in the mode of the scenario. Tells whether the evaluation was suspended. -/
def evaluate (s : Scenario) (source : String) (e : Expr) (w : Scene) :
    Option Outcome × Bool × Scene :=
  let setting : Setting Stage := ⟨Stage.host, s.sourceEngine.operators⟩
  let fuel := Scene.pollBudget w source
  if s.mode ≠ .invoke then
    let (outcome, w) := Scene.await setting fuel (e.eval s.scope .done) w
    (outcome, false, w)
  else
    match e.invoke setting s.scope w with
    | (.failed e, w) => (some (.error e), false, w)
    | (.finished v, w) =>
      if v.isPending then
        let (outcome, w) := Scene.await setting (fuel + 1) (.settle v .done) w
        (outcome, true, w)
      else (some (.ok v), false, w)
    | (.waiting rest, w) =>
      let (outcome, w) :=
        Scene.await setting (fuel + 1) (rest.andThen fun v => .settle v .done) w
      (outcome, true, w)

/-- The answer of an outcome, and the value that it leaves. -/
def answerOf (w : Scene) : Option Outcome → Answer × Value
  | some (.ok v) => (.value (w.picture v), v)
  | some (.error e) => (.failed e, .undefined)
  | none => (.deadlock, .undefined)

/-- Finish a step that began in the scene `before`: its row, and the scenario after it. -/
def finish (s : Scenario) (before : Scene) (after : Setup) (answer : Answer) (value : Value)
    (suspended : Bool) (expression : Option (String × Expr)) : Option Row × Scenario :=
  let w := after.scene
  let row : Row :=
    { answer, suspended
      ticks := w.host.clock - before.host.clock
      log := (w.host.log.take (w.host.log.length - before.host.log.length)).reverse
      environment := w.picture s.scope.environment }
  (some row, { s with setup := after, expressions := s.expressions.push expression
                      values := s.values.push value })

/-- Evaluate an expression as a step. -/
def evaluateStep (s : Scenario) (source : String) (e : Expr) : Option Row × Scenario :=
  let before := s.setup.scene
  let (outcome, suspended, w) := s.evaluate source e before
  let (answer, value) := answerOf w outcome
  let expression := if s.mode = .default then none else some (source, e)
  s.finish before { s.setup with scene := w } answer value suspended expression

/-- Run a step. A step that repeats one without an expression has no row. -/
def step (s : Scenario) : Step → Option Row × Scenario
  | .source text =>
    match Expr.parse text s.sourceEngine.symbols with
    | .error e => s.finish s.setup.scene s.setup (.unparsed e) .undefined false none
    | .ok e => s.evaluateStep text e
  | .again i =>
    match s.expressions[i]?.join with
    | some (source, e) => s.evaluateStep source e
    | none =>
      (none, { s with expressions := s.expressions.push none, values := s.values.push .undefined })
  | .same i j =>
    let a := s.values.getD i .undefined
    let b := s.values.getD j .undefined
    let w := s.setup.scene
    let (value, heap) :=
      w.heap.newArray #[.bool (a.strictEqual b), .bool (w.heap.structuralEqual a b)]
    let after := { w with heap }
    s.finish w { s.setup with scene := after } (.value (after.picture value)) value false none
  | .write target recipe =>
    let before := s.setup.scene
    let (value, setup) := recipe.make s.setup
    match Expr.parse target s.engine.symbols with
    | .error e => s.finish before setup (.unparsed e) .undefined false none
    | .ok e =>
      let w := setup.scene
      let (outcome, w) :=
        Scene.await ⟨Stage.host, .empty⟩ (Scene.pollBudget w target) (e.store s.scope value .done) w
      let (answer, value) := answerOf w outcome
      s.finish before { setup with scene := w } answer value false none

/-- Run steps one after the other. -/
def steps (s : Scenario) : List Step → List (Option Row) × Scenario
  | [] => ([], s)
  | first :: rest =>
    let (row, s) := s.step first
    let (rows, s) := s.steps rest
    (row :: rows, s)

/-- What a scenario is made from. -/
structure Script where
  receiver : Recipe
  environment : Recipe
  requests : List EngineRequest
  mode : Mode
  steps : List Step

/-- The rows of a scenario's steps and the receiver at the end; `none` stands for the row of a step that
had nothing to repeat. -/
def run (script : Script) : Except ConfigError (List (Option Row) × Picture) := do
  let engine ← ScriptedEngine.ofRequests script.requests
  let (receiver, setup) := script.receiver.make .empty
  let (environment, setup) := script.environment.make setup
  let scenario : Scenario := ⟨script.mode, engine, ⟨receiver, environment⟩, setup, #[], #[]⟩
  let (rows, scenario) := scenario.steps script.steps
  return (rows, scenario.setup.scene.picture receiver)

end Scenario

end LatentExpr
