import LatentExpr.Proofs.Grammar.Requests

/-!
The calls of the parser. The body of each of its functions is laid open as a code, in which the calls of other
functions can be told from what is read (`Call.body`); with a budget the functions are their bodies, with one less for
the calls (`perform_succ`). A code runs without any budget (`Code.Runs`), and its run lists the stack of every call that
is made. Where there is a run it is the only one, and a budget of its longest stack comes to the same
(`Code.Runs.run`).
-/
namespace LatentExpr.Parsing

/-! ### Codes -/

/-- A call of a function of the parser, by what it answers. A binary level is given by the number of looser ones, and
the rest of a loop is a call, too. -/
inductive Call : Type → Type where
  | expr : Call Expr
  | ternaries : Call (List Expr)
  | assignment : Call Expr
  | ternary : Call Expr
  | chain (looser : Nat) : Call Expr
  | chainRest (level : Level) (looser : Nat) (left : Expr) : Call Expr
  | unary : Call Expr
  | postfixes (e : Expr) : Call Expr
  | primary : Call Expr
  | elements (close : Char) : Call (List Expr)
  | elementsRest (close : Char) : Call (List Expr)
  | properties : Call (List Property)
  | propertiesRest : Call (List Property)
  | property : Call Property

/-- Steps of reading and calls, one after the other. -/
inductive Code (α : Type) : Type 1 where
  | done (a : α)
  | step {β : Type} (x : Parsing β) (next : β → Code α)
  | enter {β : Type} (c : Call β) (next : β → Code α)

namespace Code
variable {α β : Type}

def bind : Code α → (α → Code β) → Code β
  | done a, f => f a
  | step x next, f => step x fun b => (next b).bind f
  | enter c next, f => enter c fun b => (next b).bind f

instance : Monad Code where
  pure := done
  bind := bind

def read (x : Parsing α) : Code α := step x done

def call (c : Call α) : Code α := enter c done

/-- The step of reading that a code comes to if all its calls are answered as given. -/
def run (answer : ∀ {γ : Type}, Call γ → Parsing γ) : Code α → Parsing α
  | done a => pure a
  | step x next => x >>= fun b => (next b).run answer
  | enter c next => answer c >>= fun b => (next b).run answer

end Code

open Code in
/-- What a function of the parser does. -/
def Call.body : {α : Type} → Call α → Code α
  | _, expr => do
    let first ← call assignment
    if ← read (consume ',') then return .comma (first :: (← call ternaries)) else return first
  | _, ternaries => do
    let item ← call ternary
    if ← read (consume ',') then return item :: (← call ternaries) else return [item]
  | _, assignment => do
    read (ask Lexer.advance)
    let start := (← read get).position
    let target ← call ternary
    match ← read (ask (Lexer.consumeSymbol? .assignment)) with
    | none => return target
    | some _ =>
      if target.isWritable then return .assign target (← call assignment)
      else read (invalidTarget target start)
  | _, ternary => do
    let test ← call (chain 0)
    if ← read (consume '?') then
      let consequent ← call expr
      read (expect ':')
      return .ternary test consequent (← call expr)
    else return test
  | _, chain looser =>
    match Level.all[looser]? with
    | none => call unary
    | some level => do
      let left ← call (chain (looser + 1))
      call (chainRest level (looser + 1) left)
  | _, chainRest level looser left => do
    match ← read (operator? level) with
    | none => return left
    | some join =>
      let right ← call (chain looser)
      call (chainRest level looser (join left right))
  | _, unary => do
    match ← read (ask (Lexer.consumeSymbol? .unary)) with
    | some name => return .unary (.ofSymbol name.text) (← call unary)
    | none =>
      let e ← call primary
      call (postfixes e)
  | _, postfixes e => do
    if ← read (consume '(') then
      let args ← call (elements ')')
      read (expect ')')
      call (postfixes (.call e args))
    else if ← read (consume '[') then
      let key ← call expr
      read (expect ']')
      call (postfixes (.index e key))
    else if ← read (consume '.') then
      let name ← read memberName
      call (postfixes (.member e name))
    else return e
  | _, primary => do
    if ← read (consume '(') then
      let e ← call expr
      read (expect ')')
      return e
    else if ← read (consume '[') then
      let es ← call (elements ']')
      read (expect ']')
      return .array es
    else if ← read (consume '\x7b') then
      let ps ← call properties
      read (expect '\x7d')
      return .object ps
    else
      match ← read (ask Lexer.nextToken?) with
      | none => read (unexpected "expression")
      | some token => read (ofToken token)
  | _, elements close => do
    match ← read peek? with
    | none => return []
    | some c => if c = close then return [] else call (elementsRest close)
  | _, elementsRest close => do
    let next ← read peek?
    let element ←
      if next = some ',' ∨ next = some close then pure (.literal .undefined) else call assignment
    if ← read (consume ',') then return element :: (← call (elementsRest close)) else return [element]
  | _, properties => do
    match ← read peek? with
    | none => return []
    | some c => if c = '\x7d' then return [] else call propertiesRest
  | _, propertiesRest => do
    let next ← read peek?
    let slot ←
      if next = some ',' ∨ next = some '\x7d' then pure [] else (return [← call property])
    if ← read (consume ',') then return slot ++ (← call propertiesRest) else return slot
  | _, property => do
    if ← read (consume '[') then
      let key ← call assignment
      read (expect ']')
      read (expect ':')
      return .computed key (← call assignment)
    else
      match ← read (ask Lexer.nextToken?) with
      | none => read (unexpected "property")
      | some token =>
        match token.kind with
        | .number =>
          read (expect ':')
          return .constant .number token.text (← call assignment)
        | .string =>
          read (expect ':')
          return .constant .string token.text (← call assignment)
        | .identifier =>
          if isKeyword token.text then
            read (expect ':')
            return .named token.text (← call assignment)
          else if ← read (consume ':') then return .named token.text (← call assignment)
          else return .named token.text (.identifier token.text)
        | .symbol => read (invalidKey token)

/-- A function of the parser on a budget of nested calls. -/
def Call.perform (budget : Nat) : {α : Type} → Call α → Parsing α
  | _, expr => Parsing.expr budget
  | _, ternaries => Parsing.ternaries budget
  | _, assignment => Parsing.assignment budget
  | _, ternary => Parsing.ternary budget
  | _, chain looser => Parsing.chain budget (Level.all.drop looser)
  | _, chainRest level looser left => Parsing.chainRest budget level (Level.all.drop looser) left
  | _, unary => Parsing.unary budget
  | _, postfixes e => Parsing.postfixes budget e
  | _, primary => Parsing.primary budget
  | _, elements close => Parsing.elements budget close
  | _, elementsRest close => Parsing.elementsRest budget close
  | _, properties => Parsing.properties budget
  | _, propertiesRest => Parsing.propertiesRest budget
  | _, property => Parsing.property budget

/-! ### Bodies and the functions on a budget -/

-- Their equations are made here, not by every proof that asks for one of them.
section
attribute [local simp] Code.bind Code.run Call.body Call.perform
end

section
variable (n : Nat)

theorem perform_expr : Call.expr.perform (n + 1) = Call.expr.body.run (Call.perform n) := by
  rw [Call.perform, expr]
  refine bind_congr fun first => bind_congr fun more => ?_
  cases more <;> rfl

theorem perform_ternaries : Call.ternaries.perform (n + 1) = Call.ternaries.body.run (Call.perform n) := by
  rw [Call.perform, ternaries]
  refine bind_congr fun item => bind_congr fun more => ?_
  cases more <;> rfl

theorem perform_assignment : Call.assignment.perform (n + 1) = Call.assignment.body.run (Call.perform n) := by
  rw [Call.perform, assignment]
  refine bind_congr fun _ => bind_congr fun l => bind_congr fun target => bind_congr fun name => ?_
  cases name with
  | none => rfl
  | some name =>
    show (if target.isWritable = true then _ else _) = Code.run _ (if target.isWritable = true then _ else _)
    split
    · rfl
    · exact (bind_pure _).symm

theorem perform_ternary : Call.ternary.perform (n + 1) = Call.ternary.body.run (Call.perform n) := by
  rw [Call.perform, ternary]
  refine bind_congr fun test => bind_congr fun more => ?_
  cases more <;> rfl

theorem perform_chain (looser : Nat) :
    (Call.chain looser).perform (n + 1) = (Call.chain looser).body.run (Call.perform n) := by
  rw [Call.perform, Call.body]
  cases h : Level.all[looser]? with
  | none =>
    rw [List.drop_eq_nil_of_le (List.getElem?_eq_none_iff.1 h), chain]
    exact (bind_pure _).symm
  | some level =>
    obtain ⟨hlooser, rfl⟩ := List.getElem?_eq_some_iff.1 h
    rw [List.drop_eq_getElem_cons hlooser, chain]
    exact bind_congr fun left => (bind_pure _).symm

theorem perform_chainRest (level : Level) (looser : Nat) (left : Expr) :
    (Call.chainRest level looser left).perform (n + 1) =
      (Call.chainRest level looser left).body.run (Call.perform n) := by
  rw [Call.perform, chainRest]
  refine bind_congr fun join => ?_
  cases join with
  | none => rfl
  | some join => exact bind_congr fun right => (bind_pure _).symm

theorem perform_unary : Call.unary.perform (n + 1) = Call.unary.body.run (Call.perform n) := by
  rw [Call.perform, unary]
  refine bind_congr fun name => ?_
  cases name with
  | some name => rfl
  | none => exact bind_congr fun e => (bind_pure _).symm

theorem perform_postfixes (e : Expr) :
    (Call.postfixes e).perform (n + 1) = (Call.postfixes e).body.run (Call.perform n) := by
  rw [Call.perform, postfixes]
  refine bind_congr fun called => ?_
  cases called with
  | true => exact bind_congr fun args => bind_congr fun _ => (bind_pure _).symm
  | false =>
    refine bind_congr fun indexed => ?_
    cases indexed with
    | true => exact bind_congr fun key => bind_congr fun _ => (bind_pure _).symm
    | false =>
      refine bind_congr fun named => ?_
      cases named with
      | true => exact bind_congr fun name => (bind_pure _).symm
      | false => rfl

theorem perform_primary : Call.primary.perform (n + 1) = Call.primary.body.run (Call.perform n) := by
  rw [Call.perform, primary]
  refine bind_congr fun grouped => ?_
  cases grouped with
  | true => rfl
  | false =>
    refine bind_congr fun listed => ?_
    cases listed with
    | true => rfl
    | false =>
      refine bind_congr fun braced => ?_
      cases braced with
      | true => rfl
      | false =>
        refine bind_congr fun token => ?_
        cases token with
        | none => exact (bind_pure _).symm
        | some token => exact (bind_pure _).symm

theorem perform_elements (close : Char) :
    (Call.elements close).perform (n + 1) = (Call.elements close).body.run (Call.perform n) := by
  rw [Call.perform, elements]
  refine bind_congr fun next => ?_
  cases next with
  | none => rfl
  | some c =>
    show (if c = close then _ else _) = Code.run _ (if c = close then _ else _)
    split
    · rfl
    · exact (bind_pure _).symm

theorem perform_elementsRest (close : Char) :
    (Call.elementsRest close).perform (n + 1) = (Call.elementsRest close).body.run (Call.perform n) := by
  rw [Call.perform, elementsRest]
  refine bind_congr fun next => ?_
  show (if next = some ',' ∨ next = some close then _ else _) =
    Code.run _ (if next = some ',' ∨ next = some close then _ else _)
  split
  · rw [pure_bind]
    refine bind_congr fun more => ?_
    cases more <;> rfl
  · refine bind_congr fun element => bind_congr fun more => ?_
    cases more <;> rfl

theorem perform_properties : Call.properties.perform (n + 1) = Call.properties.body.run (Call.perform n) := by
  rw [Call.perform, properties]
  refine bind_congr fun next => ?_
  cases next with
  | none => rfl
  | some c =>
    show (if c = '\x7d' then _ else _) = Code.run _ (if c = '\x7d' then _ else _)
    split
    · rfl
    · exact (bind_pure _).symm

theorem perform_propertiesRest :
    Call.propertiesRest.perform (n + 1) = Call.propertiesRest.body.run (Call.perform n) := by
  rw [Call.perform, propertiesRest]
  refine bind_congr fun next => ?_
  show (if next = some ',' ∨ next = some '\x7d' then _ else _) =
    Code.run _ (if next = some ',' ∨ next = some '\x7d' then _ else _)
  split
  · rw [pure_bind]
    refine bind_congr fun more => ?_
    cases more <;> rfl
  · rw [bind_assoc]
    refine bind_congr fun p => ?_
    rw [pure_bind]
    refine bind_congr fun more => ?_
    cases more <;> rfl

theorem perform_property : Call.property.perform (n + 1) = Call.property.body.run (Call.perform n) := by
  rw [Call.perform, property]
  refine bind_congr fun computed => ?_
  cases computed with
  | true => rfl
  | false =>
    refine bind_congr fun token => ?_
    cases token with
    | none => exact (bind_pure _).symm
    | some token =>
      show (match token.kind with | .number => _ | .string => _ | .identifier => _ | .symbol => _) =
        Code.run _ (match token.kind with | .number => _ | .string => _ | .identifier => _ | .symbol => _)
      cases token.kind with
      | number => rfl
      | string => rfl
      | identifier =>
        show (if isKeyword token.text = true then _ else _) = Code.run _ (if isKeyword token.text = true then _ else _)
        split
        · rfl
        · refine bind_congr fun valued => ?_
          cases valued <;> rfl
      | symbol => exact (bind_pure _).symm

end

/-- A function on a budget does what its body says, with one less for every call. -/
theorem perform_succ {α : Type} (c : Call α) (n : Nat) : c.perform (n + 1) = c.body.run (Call.perform n) := by
  cases c with
  | expr => exact perform_expr n
  | ternaries => exact perform_ternaries n
  | assignment => exact perform_assignment n
  | ternary => exact perform_ternary n
  | chain looser => exact perform_chain n looser
  | chainRest level looser left => exact perform_chainRest n level looser left
  | unary => exact perform_unary n
  | postfixes e => exact perform_postfixes n e
  | primary => exact perform_primary n
  | elements close => exact perform_elements n close
  | elementsRest close => exact perform_elementsRest n close
  | properties => exact perform_properties n
  | propertiesRest => exact perform_propertiesRest n
  | property => exact perform_property n

/-- What a whole source is read by. -/
def Code.whole : Code Expr := do
  let e ← call .expr
  if ← read (ask Lexer.hasRemaining) then read trailing else return e

theorem whole_eq_run (budget : Nat) : whole budget = Code.whole.run (Call.perform budget) := by
  rw [whole]
  refine bind_congr fun e => bind_congr fun more => ?_
  cases more with
  | true => exact (bind_pure _).symm
  | false => rfl

/-! ### Runs without a budget -/

/-- The functions of the parser, whatever they are called with. The first one reads a whole source. -/
inductive Routine where
  | whole
  | expr
  | ternaries
  | assignment
  | ternary
  | chain (looser : Nat)
  | chainRest (looser : Nat)
  | unary
  | postfixes
  | primary
  | elements
  | elementsRest
  | properties
  | propertiesRest
  | property
deriving DecidableEq

def Call.routine : {α : Type} → Call α → Routine
  | _, expr => .expr
  | _, ternaries => .ternaries
  | _, assignment => .assignment
  | _, ternary => .ternary
  | _, chain looser => .chain looser
  | _, chainRest _ looser _ => .chainRest looser
  | _, unary => .unary
  | _, postfixes _ => .postfixes
  | _, primary => .primary
  | _, elements _ => .elements
  | _, elementsRest _ => .elementsRest
  | _, properties => .properties
  | _, propertiesRest => .propertiesRest
  | _, property => .property

/-- A call that was entered, with the lexer as it was then. -/
structure Frame where
  routine : Routine
  lexer : Lexer

def Call.frame {α : Type} (c : Call α) (l : Lexer) : Frame := ⟨c.routine, l⟩

/-- A code is run from a lexer to its answer or error. Every call that is made adds the path of calls that lead to
it, itself the last. -/
inductive Code.Runs : {α : Type} → Code α → Lexer → List (List Frame) → Except ParseError (α × Lexer) → Prop where
  | done {α : Type} (a : α) (l : Lexer) : Runs (.done a) l [] (.ok (a, l))
  | fails {α β : Type} {x : Parsing β} {next : β → Code α} {l : Lexer} {e : ParseError} (h : x l = .error e) :
    Runs (.step x next) l [] (.error e)
  | reads {α β : Type} {x : Parsing β} {next : β → Code α} {l l' : Lexer} {b : β} {paths : List (List Frame)}
    {answer : Except ParseError (α × Lexer)} (h : x l = .ok (b, l')) (hnext : Runs (next b) l' paths answer) :
    Runs (.step x next) l paths answer
  | callFails {α β : Type} {c : Call β} {next : β → Code α} {l : Lexer} {inner : List (List Frame)} {e : ParseError}
    (hcall : Runs c.body l inner (.error e)) :
    Runs (.enter c next) l (([] :: inner).map (c.frame l :: ·)) (.error e)
  | calls {α β : Type} {c : Call β} {next : β → Code α} {l l' : Lexer} {b : β} {inner paths : List (List Frame)}
    {answer : Except ParseError (α × Lexer)} (hcall : Runs c.body l inner (.ok (b, l')))
    (hnext : Runs (next b) l' paths answer) :
    Runs (.enter c next) l (([] :: inner).map (c.frame l :: ·) ++ paths) answer

section
variable {α : Type} {p : Code α} {l : Lexer} {paths paths' : List (List Frame)}
  {answer answer' : Except ParseError (α × Lexer)}

/-- A code has one run. -/
theorem Code.Runs.unique (h : p.Runs l paths answer) (h' : p.Runs l paths' answer') :
    paths = paths' ∧ answer = answer' := by
  induction h generalizing paths' with
  | done a l =>
    cases h'
    exact ⟨rfl, rfl⟩
  | fails h =>
    cases h' with
    | fails h' =>
      rw [h] at h'
      exact ⟨rfl, congrArg _ (Except.error.inj h')⟩
    | reads h' =>
      rw [h] at h'
      cases h'
  | reads h _ ih =>
    cases h' with
    | fails h' =>
      rw [h] at h'
      cases h'
    | reads h' hnext' =>
      rw [h] at h'
      cases h'
      exact ih hnext'
  | callFails _ ih =>
    cases h' with
    | callFails hcall' =>
      obtain ⟨rfl, herror⟩ := ih hcall'
      exact ⟨rfl, congrArg _ (Except.error.inj herror)⟩
    | calls hcall' => cases (ih hcall').2
  | calls _ _ ih ihnext =>
    cases h' with
    | callFails hcall' => cases (ih hcall').2
    | calls hcall' hnext' =>
      obtain ⟨rfl, hok⟩ := ih hcall'
      cases hok
      obtain ⟨rfl, rfl⟩ := ihnext hnext'
      exact ⟨rfl, rfl⟩

/-- A budget for a call is one more than a budget for what it calls. -/
theorem budget_succ {f : Frame} {inner : List (List Frame)} {n : Nat}
    (hn : ∀ path ∈ ([] :: inner).map (f :: ·), path.length ≤ n) :
    ∃ m, n = m + 1 ∧ ∀ path ∈ inner, path.length ≤ m := by
  have hall (path : List Frame) (hpath : path ∈ [] :: inner) : path.length + 1 ≤ n :=
    hn _ (List.mem_map_of_mem hpath)
  have hpos := hall [] List.mem_cons_self
  refine ⟨n - 1, by omega, fun path hpath => ?_⟩
  have hle := hall path (List.mem_cons_of_mem _ hpath)
  omega

/-- With a budget that its longest path fits in, a code comes to what it does without one. -/
theorem Code.Runs.run {n : Nat} (h : p.Runs l paths answer) (hn : ∀ path ∈ paths, path.length ≤ n) :
    p.run (Call.perform n) l = answer := by
  -- a call costs one of the budget, and its frame is one more on every path that leads through it
  induction h generalizing n with
  | done a l => rfl
  | fails h => rw [Code.run, bind_apply, h]
  | reads h _ ih =>
    rw [Code.run, bind_apply, h]
    exact ih hn
  | @callFails _ _ c next l inner e _ ih =>
    obtain ⟨n, rfl, hinner⟩ := budget_succ hn
    rw [Code.run, bind_apply, perform_succ, ih hinner]
  | @calls _ _ c next l l' b inner paths answer _ _ ih ihnext =>
    obtain ⟨hcall, hnext⟩ := List.forall_mem_append.1 hn
    have hrest := ihnext hnext
    obtain ⟨n, rfl, hinner⟩ := budget_succ hcall
    rw [Code.run, bind_apply, perform_succ, ih hinner]
    exact hrest

end

end LatentExpr.Parsing
