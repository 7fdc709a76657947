import CallLang.Action

/-!
# Streams and the clock

Builtins that read and write text and that tell the time.
-/

namespace CallLang.Builtin.Stream

open CallLang.Action

/-- The nanoseconds of a second. -/
def nanosPerSecond : Nat := 1000000000

/-- Prints values on one line, separated by spaces. -/
def print (e : Engine) (nodes : List Node) : Action Atom := do
  let values ← evalAll e nodes
  write (" ".intercalate (values.map Atom.display) ++ "\n")
  return .null

/-- Prints a value as it is. -/
def writeValue (e : Engine) (node : Node) : Action Atom := do
  let value ← e.eval node
  write value.display
  return .null

/-- Prints the fault that an expression ends with to the error output. An expression that has a
value is itself a fault. -/
def printFault (e : Engine) (node : Node) : Action Atom := do
  match ← attempt (e.eval node) with
  | .error fault =>
    writeError (fault.text ++ "\n")
    return .null
  | .ok value =>
    if ← exiting then return .null else fail (.faultExpected value.display)

/-- The seconds of the current time. -/
def now : Action Atom := do
  return .int ((← readClock) / nanosPerSecond : Nat)

/-- The nanoseconds of the current time within its second. -/
def nowNanosPart : Action Atom := do
  return .int ((← readClock) % nanosPerSecond : Nat)

end CallLang.Builtin.Stream
