import CallLang.Shell
import CallLang.Text.Numeral

/-!
# The command line

A program file is run and its value printed; without a file the shell is started. Options may be
shortened as long as they are not ambiguous, and take their value from the next word or after an
equals sign. All words after a double dash are plain.
-/

namespace CallLang

namespace CommandLine

/-- What a command line asks for. -/
structure Options where
  file : Option String := none
  usePrelude : Bool := true
  /-- The bound on the depth of calls that was asked for, or `none` if the option has a double dash
  in the place of its value. -/
  recursionLimit : Option Int := some 10000
  deriving DecidableEq, Repr

/-- How a command line is understood. -/
inductive Reading where
  | run (options : Options)
  | help
  /-- The command line is not a valid one. -/
  | refused
  deriving DecidableEq, Repr

/-- The options that have a name. -/
inductive Switch where
  | help
  | noPrelude
  | recursionLimit
  deriving DecidableEq, Repr

/-- The long names of the options. -/
def longNames : List (String × Switch) :=
  [("--help", .help), ("--no-prelude", .noPrelude), ("--recursion-limit", .recursionLimit)]

/-- A word of a command line. -/
inductive Word where
  | plain (text : String)
  /-- The double dash that ends the options. -/
  | divider
  /-- An option, with the value after its equals sign. -/
  | option (switch : Switch) (value : Option String)
  | unknown
  | ambiguous
  deriving DecidableEq, Repr

/-- `cs` without a newline at its end. -/
def dropNewline (cs : List Char) : List Char :=
  if cs.getLast? = some '\n' then cs.dropLast else cs

/-- Whether a word is a negative number, with or without a decimal point: these are not taken for
options. A newline at the end does not count. -/
def isNegativeNumber (text : String) : Bool :=
  match dropNewline text.toList with
  | '-' :: cs =>
    match cs.dropWhile isScriptDigit with
    | [] => !cs.isEmpty
    | '.' :: rest => !rest.isEmpty && rest.all isScriptDigit
    | _ => false
  | _ => false

/-- The name of a long option and the value after its equals sign. -/
def splitValue (text : String) : String × Option String :=
  match text.splitOn "=" with
  | [] => (text, none)
  | [name] => (name, none)
  | name :: rest => (name, some ("=".intercalate rest))

/-- The options that a shortened name may stand for. -/
def matching (name : String) : List Switch :=
  match longNames.find? fun entry => entry.1 = name with
  | some entry => [entry.2]
  | none => (longNames.filter fun entry => name.isPrefixOf entry.1).map Prod.snd

/-- Whether the rest of a word that starts with the short option for help only repeats its letter.
An equals sign may stand before the repetition. -/
def repeatsHelp : List Char → Bool
  | '=' :: cs => !cs.isEmpty && cs.all (· = 'h')
  | cs => cs.all (· = 'h')

/-- Reads a word that is not known to be plain. -/
def Word.ofText (text : String) : Word :=
  match text.toList with
  | '-' :: '-' :: _ =>
    let (name, value) := splitValue text
    match matching name with
    | [switch] => .option switch value
    | [] => if text.contains ' ' then .plain text else .unknown
    | _ => .ambiguous
  | '-' :: 'h' :: rest =>
    .option .help (if repeatsHelp rest then none else some (String.ofList rest))
  | '-' :: _ :: _ =>
    if isNegativeNumber text || text.contains ' ' then .plain text else .unknown
  | _ => .plain text

/-- The words of a command line. -/
def wordsOf : List String → List Word
  | [] => []
  | "--" :: rest => .divider :: rest.map .plain
  | text :: rest => Word.ofText text :: wordsOf rest

/-- Takes a plain word as the file, unless there is one: then the word is one too many. -/
def takeFile (options : Options) (surplus : Bool) (text : String) : Options × Bool :=
  match options.file with
  | none => ({ options with file := some text }, surplus)
  | some _ => (options, true)

/-- Reads words after the options that were read already; `surplus` tells whether there was a word
too many. A command line with such a word is refused only at its end, so that a later request for
help still counts. A double dash belongs to the file before or after it and is one too many after
another one. -/
def readFrom (options : Options) (surplus : Bool) : List Word → Reading
  | [] => if surplus then .refused else .run options
  | .plain text :: .divider :: rest =>
    let (options, surplus) := takeFile options surplus text
    readFrom options surplus rest
  | .plain text :: rest =>
    let (options, surplus) := takeFile options surplus text
    readFrom options surplus rest
  | .divider :: rest => readFrom options (surplus || options.file.isSome) rest
  | .option .help none :: _ => .help
  | .option .noPrelude none :: rest => readFrom { options with usePrelude := false } surplus rest
  | .option .recursionLimit (some "--") :: rest =>
    readFrom { options with recursionLimit := none } surplus rest
  | .option .recursionLimit (some value) :: rest =>
    match Numeral.read? value.toList with
    | some n => readFrom { options with recursionLimit := some n } surplus rest
    | none => .refused
  | .option .recursionLimit none :: .plain value :: rest =>
    match Numeral.read? value.toList with
    | some n => readFrom { options with recursionLimit := some n } surplus rest
    | none => .refused
  | .unknown :: rest => readFrom options true rest
  | _ => .refused

/-- Reads a command line. An ambiguous option counts before everything else. -/
def read (args : List String) : Reading :=
  let words := wordsOf args
  if .ambiguous ∈ words then .refused else readFrom {} false words

/-- How to use the program. -/
def usage : String :=
  "usage: regulus [-h] [--no-prelude] [--recursion-limit RECURSION_LIMIT] [file]\n"

/-- What the words of a command line mean. -/
def helpText : String :=
  lines [
    usage,
    "positional arguments:",
    "  file                  file to interpret and run (if empty, goes to command-",
    "                        line mode)",
    "",
    "options:",
    "  -h, --help            show this help message and exit",
    "  --no-prelude          do not import the prelude automatically",
    "  --recursion-limit RECURSION_LIMIT",
    "                        maximum depth of the Python stack"] ++ "\n"

/-- How a piece of work ended: its world, and the status if the process has to end with one. -/
structure Result where
  world : World
  status : Option Nat

/-- Ends a piece of work in which every fault is fatal. -/
def conclude (palette : Diagnostic.Palette) (m : Machine) (ending : Ending) : Result :=
  match ending.settle palette true with
  | (text, .quit status) => ⟨(m.complain text).world, some status⟩
  | (text, _) => ⟨(m.complain text).world, none⟩

/-- The bound on the depth that the command line itself reaches. -/
def leastLimit : Int := 5

/-- What is wrong with the bound on the depth that was asked for. It must be a number of 32 bits and
leave room for the command line itself. -/
def limitFault? : Option Int → Option Ending
  | none => some (.defect "TypeError" "'list' object cannot be interpreted as an integer")
  | some n =>
    if n < -2147483648 ∨ 2147483648 ≤ n then
      some (.defect "OverflowError" "Python int too large to convert to C int")
    else if n < 1 then
      some (.defect "ValueError" "recursion limit must be greater or equal than 1")
    else if n < leastLimit then some .exhausted
    else none

/-- Runs a file. No file has a name with a null character in it. -/
def performFile (palette : Diagnostic.Palette) (limits : Limits) (world : World) (path : String)
    (usePrelude : Bool) : Result :=
  let m := Machine.start world none path usePrelude
  if path.contains '\x00' then conclude palette m (.defect "ValueError" "embedded null byte")
  else
    match m.runFile limits path with
    | (.ok .null, m) => conclude palette m .done
    | (.ok value, m) => conclude palette (m.say (value.display ++ "\n")) .done
    | (.error fault, m) => conclude palette m (.failed fault)

/-- Does what options ask for. -/
def perform (palette : Diagnostic.Palette) (limits : Limits) (world : World) (options : Options) :
    Result :=
  match limitFault? options.recursionLimit with
  | some ending => conclude palette (.start world) ending
  | none =>
    match options.file with
    | some path => performFile palette limits world path options.usePrelude
    | none =>
      let m := Machine.start world (some world.files.workingDirectory) "<in>" options.usePrelude
      match Shell.session palette limits m with
      | (.ok _, shell) => conclude palette shell.machine .done
      | (.error defect, shell) => conclude palette shell.machine (.failed defect)

/-- Does what a command line asks for. -/
def execute (palette : Diagnostic.Palette) (limits : Limits) (world : World) (args : List String) :
    Result :=
  match read args with
  | .run options => perform palette limits world options
  | .help => ⟨((Machine.start world).say helpText).world, some 0⟩
  | .refused => ⟨((Machine.start world).complain usage).world, some 2⟩

end CommandLine

end CallLang
