import CallLang.Eval

/-!
# Running programs

The entry points of the library: running a text or a file in a machine, importing a module into it,
defining and calling a function. Each takes a machine and gives an outcome and the machine
afterwards.
-/

namespace CallLang

/-- The bounds of an evaluation: how deeply calls nest, and how many rounds a loop does. -/
structure Limits where
  depth : Nat
  steps : Nat

namespace Limits

/-- Bounds that programs of a sensible shape do not reach. -/
def generous : Limits := ⟨1500, 1 <<< 60⟩

/-- The engine with these bounds. -/
def engine (limits : Limits) : Engine := CallLang.engine limits.steps limits.depth

end Limits

/-- Does an action in a machine. Exhaustion becomes a fault. -/
def Action.perform {α : Type} (act : Action α) (m : Machine) : Except Fault α × Machine :=
  match act.run m with
  | (.ok a, m) => (.ok a, m)
  | (.error (.fault f), m) => (.error f, m)
  | (.error .exhausted, m) => (.error ⟨.tooDeep, []⟩, m)

namespace Machine

/-- The source of a text that is run under a name. Without a name it gets the one of the machine. -/
def sourceOf (m : Machine) (name text : String) : Source :=
  ⟨if name = "" then m.sourceName else name, text⟩

/-- Runs a text. -/
def run (limits : Limits) (m : Machine) (text : String) (name : String := "") :
    Outcome × Machine :=
  match (Action.runText limits.engine (m.sourceOf name text)).perform m with
  | (.ok outcome, m) => (outcome, m)
  | (.error fault, m) => (.error fault, m)

/-- Runs the file that a path leads to. Its imports are looked up beside it. -/
def runFile (limits : Limits) (m : Machine) (path : String) : Outcome × Machine :=
  match m.world.files.open? path with
  | some (file, text) => (m.enterFile file).run limits text path
  | none => (.error ⟨.cannotOpen path, []⟩, m)

/-- Imports a module. -/
def importModule (limits : Limits) (m : Machine) (name : String) (embeddedOnly : Bool) :
    Outcome × Machine :=
  (Action.importModule limits.engine name embeddedOnly).perform m

/-- Defines a function from the expressions for its parameters and its body. -/
def define (m : Machine) (doc : String) (params : List Node) (body : Node) :
    Except Fault Callable × Machine :=
  (Closure.define doc params body).perform m

/-- Calls a function with unevaluated arguments. -/
def call (limits : Limits) (m : Machine) (f : Callable) (args : List Node) :
    Outcome × Machine :=
  (applyWith limits.engine limits.steps f args "" "").perform m

/-- Adds text to the standard output, whatever state the program is in. -/
def say (m : Machine) (text : String) : Machine :=
  { m with world := m.world.write text }

/-- Adds text to the error output, whatever state the program is in. -/
def complain (m : Machine) (text : String) : Machine :=
  { m with world := m.world.writeError text }

end Machine

end CallLang
