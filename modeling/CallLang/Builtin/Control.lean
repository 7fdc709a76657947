import CallLang.Closure
import CallLang.Module
import CallLang.Node.Printer

/-!
# Control flow

Builtins that decide what is evaluated: sequences, conditions and loops, assignments and
definitions, faults and the end of the program.
-/

namespace CallLang.Builtin.Control

open CallLang.Action

/-- Evaluates expressions from left to right; the last one gives the value. -/
def sequence (e : Engine) (value : Atom) : List Node → Action Atom
  | [] => return value
  | node :: nodes => do
    let value ← e.eval node
    sequence e value nodes

/-- Binds a value to a name, unless evaluating the value ends the program. -/
def assign (e : Engine) (target value : Node) : Action Atom := do
  match target.name? with
  | none => failAt .assignTarget target.span
  | some name =>
    let value ← e.eval value
    if ← exiting then
      return .null
    else
      insert name value
      return .null

/-- Evaluates `body` if a condition is true. -/
def «when» (e : Engine) (condition body : Node) : Action Atom := do
  if ← evalBool e condition then e.eval body else return .null

/-- Evaluates one of two expressions. -/
def choose (e : Engine) (condition yes no : Node) : Action Atom := do
  if ← evalBool e condition then e.eval yes else e.eval no

/-- Evaluates `body` as long as a condition is true, in at most `steps` rounds. -/
def loop (e : Engine) (condition body : Node) : Nat → Action Unit
  | 0 => stop .exhausted
  | steps + 1 => do
    if ← exiting then
      return ()
    else if ← evalBool e condition then
      let _ ← e.eval body
      loop e condition body steps
    else
      return ()

/-- Defines a function under a name. -/
def define (doc : String) : List Node → Action Atom
  | target :: second :: rest => do
    let name ← nameOf target .definition
    let nodes := second :: rest
    let f ← Closure.define doc nodes.dropLast (nodes.getLast (by simp [nodes]))
    insert name (.function f)
    return .null
  | nodes => fail (.definitionTooShort nodes.length)

/-- Makes a function without a name. -/
def lambda : List Node → Action Atom
  | [] => fail .bodyMissing
  | first :: rest => do
    let nodes := first :: rest
    let f ← Closure.define "" nodes.dropLast (nodes.getLast (by simp [nodes]))
    return .function f

/-- Raises a fault in the words of the program. -/
def raise (e : Engine) (kind message : Node) : Action Atom := do
  let kind ← evalString e kind
  let message ← evalString e message
  fail (.raised kind message)

/-- The value of an expression, or the text of the fault that it ends with. -/
def recover (e : Engine) (node : Node) : Action Atom := do
  match ← attempt (e.eval node) with
  | .ok value => return value
  | .error fault => return .string fault.text

/-- Ends the program with the outcome of an expression. -/
def exit (e : Engine) (node : Node) : Action Atom := do
  let outcome ← attempt (e.eval node)
  take (.exit outcome)
  return .null

/-- Runs a text as a program of its own. -/
def eval (e : Engine) (node : Node) : Action Atom := do
  let text ← evalString e node
  evalText e text

/-- Imports a module by its bare name. -/
def importNamed (e : Engine) (node : Node) : Action Atom := do
  let name ← nameOf node .moduleName
  importModule e name

/-- Declares a name global. -/
def global (node : Node) : Action Atom := do
  let name ← nameOf node .globalName
  take (.declareGlobal name)
  return .null

/-- Fails unless an expression is true. -/
def assert (e : Engine) (node : Node) : Action Atom := do
  if ← evalBool e node then return .null else fail (.assertionFailed node.render)

/-- Fails unless two expressions have equal values. -/
def assertEq (e : Engine) (left right : Node) : Action Atom := do
  let left ← e.eval left
  let right ← e.eval right
  if left.equals right then return .null
  else fail (.assertedEqual left.display right.display)

end CallLang.Builtin.Control
