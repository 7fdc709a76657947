import CallLang.Action
import CallLang.Embedded
import CallLang.Node.Parser

/-!
# Running text and importing modules

`execute` runs program text in the current machine. A module is looked up in the directory of the
machine first and among the embedded modules second; it runs in a nested machine, and what it binds
at its top level becomes visible in the importing one.
-/

namespace CallLang

/-- A module that was found. -/
structure ModuleText where
  /-- What tells the module from others: the path of its file or a name in angle brackets. -/
  identity : String
  /-- Where the module looks up its own imports. -/
  directory : Option Path
  text : String
  embedded : Bool
  deriving DecidableEq, Repr

namespace ModuleText

/-- Whether a character may be in the name of a module. -/
def isNameChar (c : Char) : Bool :=
  ('a' ≤ c && c ≤ 'z') || ('A' ≤ c && c ≤ 'Z') || ('0' ≤ c && c ≤ '9') || c == '_'

/-- Whether a text can be the name of a module. -/
def isName (name : String) : Bool :=
  !name.toList.isEmpty && name.toList.all isNameChar

/-- The file that a module is looked up in. -/
def fileOf (directory : Path) (name : String) : Path :=
  directory ++ [name ++ ".re"]

/-- The module of a name in a directory, if its file is there. The file may be unreadable. -/
def inDirectory? (files : Files) (directory : Path) (name : String) :
    Option (Except Cause ModuleText) :=
  let path := fileOf directory name
  (files.content? path).map fun
    | .ok content => .ok ⟨path.render, some directory, readText content, false⟩
    | .error reason => .error (.unreadableModule name path.render reason)

/-- The embedded module of a name. -/
def embedded? (name : String) : Option ModuleText :=
  (Embedded.text? name).map fun text => ⟨"<stl:" ++ name ++ ">", none, text, true⟩

/-- The module that a name stands for: a file of the directory, if there is one, or an embedded
module. -/
def resolve (files : Files) (directory : Option Path) (name : String) : Except Cause ModuleText :=
  if isName name then
    match directory.bind fun d => inDirectory? files d name with
    | some found => found
    | none =>
      match embedded? name with
      | some found => .ok found
      | none => .error (.noModule name)
  else .error (.badModuleName name)

end ModuleText

namespace Action

/-- Runs program text in the current machine after a preparation, and gives its outcome. An outcome
that `exit` has stored comes before the one of the text itself. A defect of the interpreter is no
outcome. -/
def execute (e : Engine) (prepare : Action Unit) (source : Source) : Action Outcome := do
  let outcome ← contain do
    prepare
    let program ← ofOutcome (Node.parse source.text (some source))
    e.eval program
  return (← machine).exit.getD outcome

/-- Ends the run of a nested machine: what `exit` has stored there ends the current program, too;
otherwise `bindings` and the globals of the nested machine become visible. -/
def settle (origin : Origin) (outcome : Outcome) (inner : Machine) (bindings : Bindings) :
    Action Atom := do
  match inner.exit with
  | some stored =>
    take (.adopt origin stored)
    return .null
  | none =>
    let value ← ofOutcome outcome
    take (.merge origin bindings inner.storage.globals)
    return value

/-- Imports the module of a name, run by `run`, into the current machine. Its new bindings and its
globals become visible; if it calls `exit`, the current program ends, too. -/
def importWith (run : Source → Action Outcome) (name : String) (embeddedOnly : Bool) :
    Action Atom := do
  let m ← machine
  let found ← ofExcept <|
    ModuleText.resolve m.world.files (if embeddedOnly then none else m.directory) name
  if found.identity ∈ m.importStack then
    fail (.cyclicImport name found.identity)
  else
    let (outcome, inner) ← inMachine .imported
      (fun m => m.nested found.directory found.identity found.embedded
        (m.importStack ++ [found.identity]))
      (run ⟨found.identity, found.text⟩)
    settle .imported outcome inner inner.exported

/-- Imports the prelude, once, into a program that wants it. -/
def loadPrelude (e : Engine) : Action Unit := do
  let m ← machine
  if m.preludeLoaded || !m.usePrelude then
    pure ()
  else
    take .beginPrelude
    let _ ← importWith (execute e (pure ())) Embedded.preludeName true
    take .markBaseline

/-- Runs program text in the current machine, with the prelude loaded. -/
def runText (e : Engine) (source : Source) : Action Outcome :=
  execute e (loadPrelude e) source

/-- Imports a module. -/
def importModule (e : Engine) (name : String) (embeddedOnly : Bool := false) : Action Atom :=
  importWith (runText e) name embeddedOnly

/-- Runs a text in a machine without directory and gives its value. Only its globals become
visible. -/
def evalText (e : Engine) (text : String) : Action Atom := do
  let (outcome, inner) ← inMachine .evaluated
    (fun m => m.nested none "<eval>" false m.importStack)
    (runText e ⟨"<eval>", text⟩)
  settle .evaluated outcome inner []

end Action

end CallLang
