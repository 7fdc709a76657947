import CallLang.Files
import CallLang.Storage

/-!
# Machines

A machine is one running program: its storage, the place that its imports are looked up in, the
modules that are being imported, and the outcome that `exit` has stored. A module or an evaluated
string runs in a machine of its own, nested in the one that started it; the `World` is what all of
them share.
-/

namespace CallLang

/-- How a program ends: with a value or with a fault. -/
abbrev Outcome := Except Fault Atom

/-- Text that is still to be read. -/
structure Input where
  unread : List Char := []
  closed : Bool := false

/-- Text that was written. -/
structure Output where
  written : String := ""
  closed : Bool := false

/-- What all machines share: files, streams, the clock, the numbers that were given out, and what
the interpreter knows of values beyond what they show. -/
structure World where
  files : Files := {}
  stdin : Input := {}
  stdout : Output := {}
  stderr : Output := {}
  /-- The readings of the clock, in nanoseconds since the epoch. -/
  clock : Nat → Nat := fun _ => 0
  /-- How often the clock was read. -/
  readings : Nat := 0
  /-- The type id of the next type. -/
  nextTypeId : Nat := Atom.firstTypeId
  /-- The stamp of the next function that a program defines. -/
  nextStamp : Nat := 0
  /-- Whether a name is still bound to the one and same value as in the baseline of its program, if
  the value does not show it. The answers may differ from one merge to the next. -/
  identical : Nat → String → Bool := fun _ _ => true
  /-- How often a nested program has left its bindings or globals behind. -/
  merges : Nat := 0

/-- A running program. -/
structure Machine where
  world : World := {}
  storage : Storage := {}
  /-- Where modules are looked up; without it only embedded modules can be imported. -/
  directory : Option Path := none
  /-- The name that program text has in diagnostics, unless a run gives another one. -/
  sourceName : String := "<in>"
  usePrelude : Bool := true
  preludeLoaded : Bool := false
  /-- The identities of the modules that are being imported, outermost first. -/
  importStack : List String := []
  /-- The outcome that `exit` has stored. While there is one, nothing is evaluated. -/
  exit : Option Outcome := none
  /-- The bindings of the outermost scope that are not exported. -/
  baseline : Bindings := []

/-- The names of all builtins with their functions. -/
def builtinBindings : Bindings :=
  Builtin.table.map fun entry => (entry.1, .function (.builtin [] entry.2))

namespace Machine

/-- A machine before its first run. It knows the builtins only. -/
def start (world : World) (directory : Option Path := none) (sourceName : String := "<in>")
    (usePrelude : Bool := true) : Machine :=
  { world := world
    storage := { outermost := builtinBindings }
    directory := directory
    sourceName := sourceName
    usePrelude := usePrelude
    baseline := builtinBindings }

/-- A machine for a module or an evaluated string. It starts with the builtins and the globals of
the machine that starts it, and embedded modules do without the prelude. -/
def nested (m : Machine) (directory : Option Path) (sourceName : String) (embedded : Bool)
    (importStack : List String) : Machine :=
  { m with
    storage :=
      { outermost := builtinBindings
        globals := m.storage.globals
        globalNames := m.storage.globalNames }
    directory := directory
    sourceName := sourceName
    preludeLoaded := embedded
    importStack := importStack
    exit := none
    baseline := builtinBindings }

/-- A nested machine shares the world with the machine that starts it. -/
theorem world_nested (m : Machine) (directory : Option Path) (sourceName : String)
    (embedded : Bool) (importStack : List String) :
    (m.nested directory sourceName embedded importStack).world = m.world := rfl

/-- The bindings that a program makes visible in one that imports it: those of its outermost scope
that are new against its baseline. -/
def exported (m : Machine) : Bindings :=
  m.storage.exported (m.world.identical m.world.merges) m.baseline

/-- Looks up modules beside the file at `path` from now on, and counts the file as being
imported. -/
def enterFile (m : Machine) (path : Path) : Machine :=
  { m with
    directory := some path.parent
    importStack :=
      if path.render ∈ m.importStack then m.importStack else m.importStack ++ [path.render] }

end Machine

end CallLang
