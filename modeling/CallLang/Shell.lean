import CallLang.Diagnostic
import CallLang.Run

/-!
# The shell

The shell takes a program line by line. Lines are kept until they make complete program text, which
is then run; all runs use one machine, so what one defines is there for the next. `help` and the end
of input are commands of the shell itself. Faults of a program are reported and the conversation
goes on; a defect of the interpreter ends it.
-/

namespace CallLang

/-- A conversation with a user. -/
structure Shell where
  machine : Machine
  /-- The lines of program text that is not complete yet, in order. -/
  pending : List String := []
  /-- The number of texts that were run. -/
  runs : Nat := 0
  /-- What the shell says before it waits for the next line. -/
  prompt : String := "> "

namespace Shell

/-- What a line asks for. -/
inductive Command where
  | nothing
  | help
  /-- The end of input. -/
  | leave
  | code (line : String)
  deriving DecidableEq, Repr

/-- Reads a line. Blanks around it do not count; a question mark asks for help, and so does a line
that starts with the word. -/
def Command.ofLine (line : String) : Command :=
  let cs := trimBlanks line.toList
  match cs with
  | [] => .nothing
  | '?' :: _ => .help
  | _ =>
    let word := String.ofList (cs.takeWhile ModuleText.isNameChar)
    if word = "help" then .help
    else if word = "EOF" then .leave
    else .code (String.ofList cs)

/-- What the shell says first. -/
def intro : String :=
  lines [
    "Regulus interpreter :: Python backend",
    "Type '?' or 'help' for more information."]

/-- What the shell says when it is asked for help. -/
def helpText : String :=
  lines [
    "Welcome to the regulus interpreter!",
    "",
    "Everything in regulus is a function call. Try it out by typing '=(x, +(3, 4))'.",
    "This will bind the value 7 to the name 'x'. Next, try typing 'print(x)'.",
    "",
    "Functions are defined with 'def(name, arg1, arg2, body)', and the documentation of",
    "any function can be read with 'doc(name)'. Type 'exit(null)' to leave."]

/-- The text of lines. -/
def textOf (block : List String) : String := "\n".intercalate block

/-- The name of the text that is run as number `count`. -/
def sourceName (count : Nat) : String := "<in:" ++ toString count ++ ">"

/-- Shows how a program ended: its value, unless that is `null`, or the report of its fault. -/
def showOutcome (palette : Diagnostic.Palette) (m : Machine) : Outcome → Machine
  | .ok .null => m
  | .ok value => m.say (value.display ++ "\n")
  | .error fault => m.complain ((Ending.failed fault).settle palette false).1

/-- Whether the conversation ends with the outcome of a program. Defects are passed on. -/
def endsWith (m : Machine) : Outcome → Except Fault Bool
  | .ok _ => .ok m.exit.isSome
  | .error fault => if fault.isDefect then .error fault else .ok m.exit.isSome

/-- Runs lines that are complete program text. Gives whether the program has ended. -/
def runLines (palette : Diagnostic.Palette) (limits : Limits) (shell : Shell)
    (block : List String) : Except Fault Bool × Shell :=
  let (outcome, m) := shell.machine.run limits (textOf block) (sourceName (shell.runs + 1))
  (endsWith m outcome,
    { machine := showOutcome palette m outcome, pending := [], runs := shell.runs + 1,
      prompt := "> " })

/-- Takes a line of program text. Gives whether the program has ended. A line that makes the
interpreter fail when it is read is kept, too. -/
def takeCode (palette : Diagnostic.Palette) (limits : Limits) (shell : Shell) (line : String) :
    Except Fault Bool × Shell :=
  let block := shell.pending ++ [line]
  match isIncomplete (textOf block) with
  | .error defect => (.error defect, { shell with pending := block })
  | .ok true => (.ok false, { shell with pending := block, prompt := ". " })
  | .ok false => shell.runLines palette limits block

/-- Takes a line. Gives whether the conversation ends. An empty line counts only inside program text
that is not complete. -/
def takeLine (palette : Diagnostic.Palette) (limits : Limits) (shell : Shell) (line : String) :
    Except Fault Bool × Shell :=
  match Command.ofLine line with
  | .nothing =>
    if shell.pending.isEmpty then (.ok false, shell) else shell.takeCode palette limits ""
  | .help => (.ok false, { shell with machine := shell.machine.say (helpText ++ "\n") })
  | .leave => (.ok true, { shell with machine := shell.machine.say "\n" })
  | .code line => shell.takeCode palette limits line

/-- The next line of the input, without its newline. The end of input counts as a command. -/
def nextLine (m : Machine) : String × Machine :=
  let (line, rest) := Input.takeLine m.world.stdin.unread
  let m := { m with world := { m.world with stdin := ⟨rest, m.world.stdin.closed⟩ } }
  if line.isEmpty then ("EOF", m)
  else if line.getLast? = some '\n' then (String.ofList line.dropLast, m)
  else (String.ofList line, m)

/-- Takes lines of the input until the conversation ends, at most `count` of them. -/
def converse (palette : Diagnostic.Palette) (limits : Limits) (shell : Shell) :
    Nat → Except Fault Unit × Shell
  | 0 => (.ok (), shell)
  | count + 1 =>
    let (line, m) := nextLine (shell.machine.say shell.prompt)
    match takeLine palette limits { shell with machine := m } line with
    | (.ok true, shell) => (.ok (), shell)
    | (.ok false, shell) => converse palette limits shell count
    | (.error defect, shell) => (.error defect, shell)

/-- A whole conversation. Every line takes a character of the input, and its end is the last one. -/
def session (palette : Diagnostic.Palette) (limits : Limits) (m : Machine) :
    Except Fault Unit × Shell :=
  converse palette limits { machine := m.say (intro ++ "\n") } (m.world.stdin.unread.length + 1)

end Shell

end CallLang
