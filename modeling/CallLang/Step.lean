import CallLang.Machine

/-!
# Steps

Everything that can happen to a machine. A running program looks at its machine as it likes, but it
changes it by steps only, so the steps of a run tell its whole history.

The steps of a nested machine are steps of the machine that started it, too: they change its world.
-/

namespace CallLang

/-- What a nested machine runs. -/
inductive Origin where
  /-- A module that is imported. -/
  | imported
  /-- A text that is evaluated. -/
  | evaluated
  deriving DecidableEq, Repr

/-- One change of a machine. -/
inductive Step where
  /-- A call of `exit` stores the outcome that ends the program. -/
  | exit (outcome : Outcome)
  /-- The stored outcome of a nested program ends this program, too. -/
  | adopt (origin : Origin) (outcome : Outcome)
  /-- A name is bound. -/
  | insert (name : String) (value : Atom)
  /-- A name is declared global. -/
  | declareGlobal (name : String)
  /-- What a nested program leaves behind becomes visible. -/
  | merge (origin : Origin) (bindings globals : Bindings)
  /-- A call opens a scope and binds its parameters. -/
  | enter (params : Bindings)
  /-- A call closes its scope. -/
  | leave
  /-- The scopes above the `depth` lowest ones are hidden. -/
  | hide (depth : Nat)
  /-- Hidden scopes are put back. -/
  | restore (scopes : List Bindings)
  /-- A type id is given out. -/
  | takeTypeId
  /-- A stamp is given out. -/
  | takeStamp
  /-- The clock is read. -/
  | readClock
  /-- Text is written to the standard output. -/
  | write (text : String)
  /-- Text is written to the error output. -/
  | writeError (text : String)
  /-- A line of the input is consumed. -/
  | readLine
  /-- The prelude counts as loaded. -/
  | beginPrelude
  /-- What is bound at the top level so far is not exported. -/
  | markBaseline
  /-- A nested machine takes a step. -/
  | nested (origin : Origin) (inner : Machine) (step : Step)

/-- Takes one line, with its newline if it has one, from the unread input. -/
def Input.takeLine : List Char → List Char × List Char
  | [] => ([], [])
  | c :: cs =>
    if c = '\n' then ([c], cs)
    else
      let (line, rest) := takeLine cs
      (c :: line, rest)

namespace World

/-- The world after text was written to the standard output. -/
def write (w : World) (text : String) : World :=
  { w with stdout := ⟨w.stdout.written ++ text, w.stdout.closed⟩ }

/-- The world after text was written to the error output. -/
def writeError (w : World) (text : String) : World :=
  { w with stderr := ⟨w.stderr.written ++ text, w.stderr.closed⟩ }

/-- The world after a nested program has left something behind. -/
def countMerge (w : World) : World := { w with merges := w.merges + 1 }

/-- The world after a line of the input was consumed. -/
def dropLine (w : World) : World :=
  { w with stdin := ⟨(Input.takeLine w.stdin.unread).2, w.stdin.closed⟩ }

end World

namespace Step

/-- The machine after a step. -/
def apply : Step → Machine → Machine
  | exit outcome, m => { m with exit := some outcome }
  | adopt _ outcome, m => { m with exit := some outcome }
  | insert name value, m => { m with storage := m.storage.insert name value }
  | declareGlobal name, m => { m with storage := m.storage.declareGlobal name }
  | merge _ bindings globals, m =>
    { m with storage := m.storage.extend bindings globals, world := m.world.countMerge }
  | enter params, m => { m with storage := m.storage.push.insertAll params }
  | leave, m => { m with storage := m.storage.pop }
  | hide depth, m => { m with storage := m.storage.truncate depth }
  | restore scopes, m => { m with storage := m.storage.restore scopes }
  | takeTypeId, m => { m with world := { m.world with nextTypeId := m.world.nextTypeId + 1 } }
  | takeStamp, m => { m with world := { m.world with nextStamp := m.world.nextStamp + 1 } }
  | readClock, m => { m with world := { m.world with readings := m.world.readings + 1 } }
  | write text, m => { m with world := m.world.write text }
  | writeError text, m => { m with world := m.world.writeError text }
  | readLine, m => { m with world := m.world.dropLine }
  | beginPrelude, m => { m with preludeLoaded := true }
  | markBaseline, m => { m with baseline := m.storage.outermost }
  | nested _ inner step, m => { m with world := (step.apply inner).world }

end Step

end CallLang
