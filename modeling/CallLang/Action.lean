import CallLang.Atom.Display
import CallLang.Step

/-!
# Actions

What a program does while it is evaluated. An action looks at the machine and takes steps, one after
the other, and ends with a result, with a fault, or exhausted: evaluation is bounded, and a program
that reaches the bound is stopped from outside. Programs can handle their own faults, but never see
exhaustion or a defect of the interpreter.

`Action.run` gives the result of an action and the machine that it leaves, `Action.trace` the steps
that it takes on the way. All builtins are made from the actions of this module.
-/

namespace CallLang

/-- The ways in which an action ends early. -/
inductive Stop where
  | fault (f : Fault)
  /-- The bound on evaluation was reached. -/
  | exhausted

/-- What a running program does. -/
inductive Action (α : Type) where
  /-- Nothing is left to do. -/
  | done (result : Except Stop α)
  /-- What is left to do depends on the machine. -/
  | look (next : Machine → Action α)
  /-- The machine takes a step. -/
  | step (s : Step) (next : Action α)

/-- A step that a machine takes, together with the machine before the step. -/
structure Moment where
  machine : Machine
  step : Step

namespace Action

variable {α β : Type}

/-- The result of an action and the machine afterwards. -/
def run : Action α → Machine → Except Stop α × Machine
  | done result, m => (result, m)
  | look next, m => (next m).run m
  | step s next, m => next.run (s.apply m)

/-- The steps that an action takes, in order. -/
def trace : Action α → Machine → List Moment
  | done _, _ => []
  | look next, m => (next m).trace m
  | step s next, m => ⟨m, s⟩ :: next.trace (s.apply m)

/-- Does an action and goes on with its result, whatever that is. -/
def resume : Action α → (Except Stop α → Action β) → Action β
  | done result, f => f result
  | look next, f => look fun m => (next m).resume f
  | step s next, f => step s (next.resume f)

/-- Ends an action early. -/
def stop (reason : Stop) : Action α := done (.error reason)

instance : Monad Action where
  pure a := done (.ok a)
  bind x f := x.resume fun
    | .ok a => f a
    | .error reason => stop reason

/-- Fails at no particular place. -/
def fail (cause : Cause) : Action α :=
  stop (.fault ⟨cause, []⟩)

/-- Fails at a place. -/
def failAt (cause : Cause) (span : Option Span) : Action α :=
  stop (.fault (.at? cause span))

/-- Fails for a cause that a computation without effects has found. -/
def ofExcept : Except Cause α → Action α
  | .ok a => pure a
  | .error cause => fail cause

/-- Fails with a fault. -/
def ofOutcome : Except Fault α → Action α
  | .ok a => pure a
  | .error fault => stop (.fault fault)

/-- Goes on with a fault of the program. A defect of the interpreter passes. -/
def caught (f : Fault) : Action (Except Fault α) :=
  if f.isDefect then stop (.fault f) else pure (.error f)

/-- Does an action that may fail: faults of the program are results, all else passes. -/
def attempt (act : Action α) : Action (Except Fault α) :=
  act.resume fun
    | .ok a => pure (.ok a)
    | .error (.fault f) => caught f
    | .error .exhausted => stop .exhausted

/-- Does an action that may fail: exhaustion becomes a fault, too. -/
def contain (act : Action α) : Action (Except Fault α) :=
  act.resume fun
    | .ok a => pure (.ok a)
    | .error (.fault f) => caught f
    | .error .exhausted => pure (.error ⟨.tooDeep, []⟩)

/-- Records the call at `span` in every fault that leaves the action. -/
def traced (span : Option Span) (act : Action α) : Action α :=
  act.resume fun
    | .ok a => pure a
    | .error (.fault f) => stop (.fault (f.addFrame span))
    | .error .exhausted => stop .exhausted

/-- The machine as it is. -/
def machine : Action Machine := look pure

/-- Takes one step. -/
def take (s : Step) : Action Unit := step s (pure ())

/-- Whether an outcome is stored that ends the program. -/
def exiting : Action Bool := do
  return (← machine).exit.isSome

/-- Binds a name. -/
def insert (name : String) (value : Atom) : Action Unit :=
  take (.insert name value)

/-- The value of a variable that is written at `span`. -/
def lookup (name : String) (span : Option Span) : Action Atom := do
  match (← machine).storage.get? name with
  | some value => return value
  | none => failAt (.noVariable name) span

/-- The function that a name is bound to. -/
def lookupFunction (name : String) : Action Callable := do
  ofExcept ((← machine).storage.getFunction name)

/-- Does an action and takes a step after it, however the action ends. -/
def andFinally (act : Action α) (s : Step) : Action α :=
  act.resume fun result => step s (done result)

/-- Does an action in a scope of its own that starts with `params`. The scope is closed however the
action ends. -/
def inScope (params : Bindings) (act : Action α) : Action α :=
  step (.enter params) (act.andFinally .leave)

/-- Does an action with only the `depth` lowest scopes. The others come back however the action
ends. -/
def truncated (depth : Nat) (act : Action α) : Action α :=
  look fun m => step (.hide depth) (act.andFinally (.restore (m.storage.hidden depth)))

/-- Does an action in the nested machine `inner`. -/
def within (origin : Origin) (inner : Machine) : Action α → Action (α × Machine)
  | done (.ok a) => pure (a, inner)
  | done (.error reason) => stop reason
  | look next => within origin inner (next inner)
  | step s next => step (.nested origin inner s) (within origin (s.apply inner) next)

/-- Does an action in a nested machine, which is made from the current one and shares the world with
it. Gives the result and the nested machine as the action leaves it. -/
def inMachine (origin : Origin) (other : Machine → Machine) (act : Action α) :
    Action (α × Machine) :=
  look fun m => act.within origin (other m)

/-- A type id that no other type has. -/
def freshTypeId : Action Nat := do
  let id := (← machine).world.nextTypeId
  take .takeTypeId
  return id

/-- The stamp of the next function that the program defines. Until there is one it serves as the
time. -/
def nextStamp : Action Nat := do
  return (← machine).world.nextStamp

/-- A stamp that no other function has. -/
def freshStamp : Action Nat := do
  let stamp ← nextStamp
  take .takeStamp
  return stamp

/-- Reads the clock. -/
def readClock : Action Nat := do
  let world := (← machine).world
  take .readClock
  return world.clock world.readings

/-- Writes to the standard output. Nothing is written once the program is ending. -/
def write (text : String) : Action Unit := do
  if ← exiting then
    pure ()
  else if (← machine).world.stdout.closed then
    fail .writeClosed
  else
    take (.write text)

/-- Writes to the error output. Nothing is written once the program is ending. -/
def writeError (text : String) : Action Unit := do
  if ← exiting then
    pure ()
  else if (← machine).world.stderr.closed then
    fail .writeClosed
  else
    take (.writeError text)

/-- Reads a line of the input. The line must be complete. -/
def readLine : Action String := do
  let input := (← machine).world.stdin
  if input.closed then
    fail .readClosed
  else
    take .readLine
    let line := (Input.takeLine input.unread).1
    match line.getLast? with
    | none => fail .endOfInput
    | some c =>
      if c = '\n' then return String.ofList line.dropLast
      else fail .lineUnfinished

end Action

/-- What builtins may ask for: the value of an expression, and a call of a function with unevaluated
arguments, a name for messages and the comments before the call. -/
structure Engine where
  eval : Node → Action Atom
  call : Callable → List Node → String → String → Action Atom

namespace Action

/-- The value of an expression that must be an integer. -/
def evalInt (e : Engine) (node : Node) : Action Int := do
  match ← e.eval node with
  | .int n => return n
  | a => fail (.wrongVariant a.display [.int])

/-- The value of an expression that must be a truth value. -/
def evalBool (e : Engine) (node : Node) : Action Bool := do
  match ← e.eval node with
  | .bool b => return b
  | a => fail (.wrongVariant a.display [.bool])

/-- The value of an expression that must be a string. -/
def evalString (e : Engine) (node : Node) : Action String := do
  match ← e.eval node with
  | .string s => return s
  | a => fail (.wrongVariant a.display [.string])

/-- The value of an expression that must be an object, as its type id and fields. -/
def evalObject (e : Engine) (node : Node) : Action (Nat × Bindings) := do
  match ← e.eval node with
  | .object typeId fields => return (typeId, fields)
  | a => fail (.wrongVariant a.display [.object])

/-- The values of expressions, from left to right. -/
def evalAll (e : Engine) : List Node → Action (List Atom)
  | [] => return []
  | node :: nodes => do
    let value ← e.eval node
    let values ← evalAll e nodes
    return value :: values

/-- The name that an expression consists of. -/
def nameOf (node : Node) (place : NamePlace) : Action String :=
  match node.name? with
  | some name => pure name
  | none => failAt (.nameNeeded place) node.span

end Action

end CallLang
