import CallLang.Text.Span
import CallLang.Text.Decimal
import CallLang.Variant

/-!
# Faults

What can go wrong in a program. A `Cause` says what happened; `Cause.kind` and `Cause.message` are
the only places that give it words. A `Fault` is a cause together with the calls that it left on its
way out, innermost first.

Nothing in a cause depends on spans: they are only in the backtrace.
-/

namespace CallLang

/-- The places where a builtin insists on a bare name instead of an expression. -/
inductive NamePlace where
  /-- A parameter of a function. -/
  | parameter
  /-- The name that a function is defined under. -/
  | definition
  /-- The name of a module. -/
  | moduleName
  /-- A name that is declared global. -/
  | globalName
  /-- The name of a type. -/
  | typeName
  /-- A field that is read. -/
  | fieldRead
  /-- A field that is replaced. -/
  | fieldWrite
  /-- A method that is called. -/
  | method
  /-- The variable of a loop. -/
  | loopVariable
  deriving DecidableEq, Repr

/-- What a program is told when something else than a name stands in the place. -/
def NamePlace.complaint : NamePlace → String
  | parameter => "Error during definition: invalid args were given!"
  | definition =>
    "Error during function definition: no valid variable was given to define to!"
  | moduleName => "`import` argument must be a variable, string syntax was removed"
  | globalName => "`global(1)` expects a variable argument"
  | typeName => "`type` must take a variable as first argument"
  | fieldRead => "`.` takes a field identifier as second argument"
  | fieldWrite => "`->` takes a field identifier as second argument"
  | method => "`@` expected the name of a method as second arg"
  | loopVariable => "invalid loop variable given to `for_in`"

/-- The reasons for which a program fails. -/
inductive Cause where
  /-- A numeral of the program text is out of range. -/
  | numeralOverflow (word : String)
  /-- A quote opens a string that is never closed. -/
  | unclosedString
  /-- A parenthesis is closed that was never opened. -/
  | closedTooOften (closed opened : Nat)
  /-- A parenthesis stays open. -/
  | unbalanced (opened closed : Nat)
  /-- A parenthesis opens without a function name before it. -/
  | strayOpening
  /-- A parenthesis closes where no call is open. -/
  | strayClosing
  /-- A function is called with a wrong number of arguments. -/
  | arity (expected found : Nat) (name : String)
  /-- An integer does not fit into 64 bits. -/
  | outOfRange (value : Int)
  /-- A value, shown by its text, is of none of the wanted variants. -/
  | wrongVariant (shown : String) (wanted : List Variant)
  /-- A variable has no value. -/
  | noVariable (name : String)
  /-- A called name has no value. -/
  | noFunction (name : String)
  /-- A called name is not bound to a function. -/
  | notFunction (name : String)
  /-- A parameter consists of marks only. -/
  | emptyParameter
  /-- A variadic parameter is followed by another one. -/
  | variadicNotLast
  /-- A variadic function lacks arguments. -/
  | tooFewForVariadic (required found : Nat)
  /-- An expression stands where a name is needed. -/
  | nameNeeded (place : NamePlace)
  /-- The result of an operation does not fit into 64 bits. -/
  | operationOverflow (operator : String)
  /-- A division by zero. -/
  | divisionByZero
  /-- The remainder of a division by zero. -/
  | remainderByZero
  /-- A shift by a negative amount. -/
  | negativeShift (operator : String) (amount : Int)
  /-- A shift by 64 bits or more. -/
  | shiftTooLarge (operator : String)
  /-- A string that is no numeral is converted to an integer. -/
  | noNumeral (text : String)
  /-- A string with a numeral that is out of range is converted to an integer. -/
  | numeralTooLarge (text : String)
  /-- A string that is no truth value is converted to one. -/
  | noTruthValue (text : String)
  /-- An assignment to something else than a name. -/
  | assignTarget
  /-- A definition without body. -/
  | definitionTooShort (found : Nat)
  /-- An anonymous function without body. -/
  | bodyMissing
  /-- An asserted expression, shown by its source, is false. -/
  | assertionFailed (expression : String)
  /-- Two values, shown by their texts, are asserted to be equal and are not. -/
  | assertedEqual (left right : String)
  /-- An expression that should fail gives a value, shown by its text. -/
  | faultExpected (shown : String)
  /-- A question about functions is asked of something else. -/
  | functionNeeded (builtin : String)
  /-- A call among the fields of a type is not an assignment. -/
  | defaultNotAssigned
  /-- An assignment among the fields of a type has not the form of a default. -/
  | defaultMalformed
  /-- A field of a type is neither a name nor an assignment. -/
  | fieldMalformed
  /-- Two fields of a type have one name. -/
  | duplicateField (name : String)
  /-- A type without name. -/
  | typeNameMissing
  /-- An object lacks a field. -/
  | noField (name : String)
  /-- An object lacks a method. -/
  | noMethod (name : String)
  /-- A method call without object or method. -/
  | methodCallTooShort
  /-- A negative index. -/
  | negativeIndex (index : Int)
  /-- An index past the end of a sequence. -/
  | indexOutOfBounds
  /-- A character of a string is replaced by a string that is not one character. -/
  | notSingleCharacter
  /-- A module name with forbidden characters. -/
  | badModuleName (name : String)
  /-- No module has the name. -/
  | noModule (name : String)
  /-- The file of a module is there but cannot be read, for a reason that the system gives. -/
  | unreadableModule (name path reason : String)
  /-- A module is imported while it is being imported. -/
  | cyclicImport (name identity : String)
  /-- A stream that is closed is written to. -/
  | writeClosed
  /-- The closed input is read from. -/
  | readClosed
  /-- The input has ended. -/
  | endOfInput
  /-- The last line of the input has no newline. -/
  | lineUnfinished
  /-- A file cannot be opened. -/
  | cannotOpen (path : String)
  /-- Calls are nested too deeply. -/
  | tooDeep
  /-- The program was interrupted by its user. -/
  | interrupted
  /-- The interpreter itself is at fault, in the words of what it is written in. -/
  | defect (name message : String)
  /-- A fault that a program raises itself, in its own words. -/
  | raised (kind message : String)
  deriving DecidableEq, Repr

/-- Texts joined by "or". -/
def alternatives (names : List String) : String :=
  " or ".intercalate names

namespace Cause

/-- The kind of a fault: a word that `Error` can be appended to. -/
def kind : Cause → String
  | numeralOverflow _ | unclosedString | closedTooOften .. | unbalanced .. | strayOpening
  | strayClosing | defaultNotAssigned | defaultMalformed | fieldMalformed | duplicateField _
  | typeNameMissing | methodCallTooShort => "Syntax"
  | arity .. | emptyParameter | variadicNotLast | tooFewForVariadic .. | nameNeeded _
  | negativeShift .. | definitionTooShort _ | bodyMissing | functionNeeded _ => "Argument"
  | outOfRange _ | operationOverflow _ | divisionByZero | remainderByZero | shiftTooLarge _
  | numeralTooLarge _ | tooDeep => "Overflow"
  | wrongVariant .. | noNumeral _ | noTruthValue _ => "Type"
  | noVariable _ | noFunction _ | notFunction _ | noField _ | noMethod _ => "Name"
  | assignTarget => "Assign"
  | assertionFailed _ | assertedEqual .. | faultExpected _ => "Assertion"
  | negativeIndex _ | indexOutOfBounds | notSingleCharacter => "Index"
  | badModuleName _ | noModule _ | unreadableModule .. | cyclicImport .. => "Import"
  | writeClosed | readClosed | endOfInput | lineUnfinished | cannotOpen _ => "Io"
  | interrupted => "Interrupt"
  | defect .. => "Internal"
  | raised kind _ => kind

/-- What happened, in one sentence. -/
def message : Cause → String
  | numeralOverflow word =>
    "integer " ++ word ++ " cannot be parsed as an integer due to overflow"
  | unclosedString => "unclosed string literal"
  | closedTooOften closed opened =>
    "more ')' (" ++ toString closed ++ ") than '(' (" ++ toString opened ++ ") at some time"
  | unbalanced opened closed =>
    "nonequal amount of '(' and ')': " ++ toString opened ++ " vs. " ++ toString closed
  | strayOpening => "'(' must directly follow a function name"
  | strayClosing => "unexpected ')'"
  | arity expected found name =>
    "expected `" ++ toString expected ++ "` args, found `" ++ toString found ++ "` args" ++
      (if name = "" then "" else " for `" ++ name ++ "`")
  | outOfRange value => "integer " ++ Decimal.text value ++ " does not fit into 64 bits"
  | wrongVariant shown wanted =>
    shown ++ " is not a " ++ alternatives (wanted.map Variant.name) ++ "!"
  | noVariable name => "No variable named `" ++ name ++ "` found!"
  | noFunction name => "No function `" ++ name ++ "` found!"
  | notFunction name => "`" ++ name ++ "` is not a function!"
  | emptyParameter => "function parameter names must not be empty"
  | variadicNotLast => "variadic argument must be the last of the fn arguments"
  | tooFewForVariadic required found =>
    "too few arguments to variadic function: expected at least " ++ toString required ++
      ", found " ++ toString found
  | nameNeeded place => place.complaint
  | operationOverflow operator => "overflow occurred during " ++ operator
  | divisionByZero => "attempted to divide by zero"
  | remainderByZero => "attempted to calculate the remainder of a division by zero"
  | negativeShift operator amount =>
    "invalid arithmetic argument for `" ++ operator ++ "`: negative shift amount " ++
      Decimal.text amount
  | shiftTooLarge operator => operator ++ " operation failed"
  | noNumeral text => "cannot convert string to int: invalid digit in \"" ++ text ++ "\""
  | numeralTooLarge text => "cannot convert string to int: \"" ++ text ++ "\" is too large"
  | noTruthValue text => "cannot convert string to bool: \"" ++ text ++ "\""
  | assignTarget => "Error during assignment: no variable was given to assign to!"
  | definitionTooShort found =>
    "too few arguments passed to `def`: expected at least 2, found " ++ toString found
  | bodyMissing => "`fn` invocation is missing body"
  | assertionFailed expression => "assertion failed: `" ++ expression ++ "`"
  | assertedEqual left right => "assertion failed: " ++ left ++ " != " ++ right
  | faultExpected shown =>
    "`__builtin_print_catch` argument should cause an exception, got " ++ shown
  | functionNeeded builtin => "`" ++ builtin ++ "` must be called on a function"
  | defaultNotAssigned => "defaulted `type` values must use `=`"
  | defaultMalformed => "defaulted `type` values must have the form `=(name, value)`"
  | fieldMalformed => "`type` field arguments should be variables or `=` calls"
  | duplicateField name => "duplicate `type` field `" ++ name ++ "`"
  | typeNameMissing => "`type` takes at least one argument"
  | noField name => "object has no field named `" ++ name ++ "`"
  | noMethod name => "object has no method `" ++ name ++ "`"
  | methodCallTooShort => "too few arguments for `@`"
  | negativeIndex index => "invalid list index: " ++ Decimal.text index ++ " is negative"
  | indexOutOfBounds => "sequence index out of bounds"
  | notSingleCharacter => "atom is not a single character"
  | badModuleName name =>
    "invalid characters in import name `" ++ name ++ "`, only a-Z, 0-9 and _ are allowed"
  | noModule name => "failed to find file for importing `" ++ name ++ "`"
  | unreadableModule name path reason =>
    "failed to read `" ++ path ++ "` for importing `" ++ name ++ "`: " ++ reason
  | cyclicImport name identity =>
    "cyclic import of `" ++ name ++ "` at path `" ++ identity ++ "` detected"
  | writeClosed => "Error while writing: I/O operation on closed file"
  | readClosed => "Error while reading input: I/O operation on closed file"
  | endOfInput => "end of input reached"
  | lineUnfinished => "missing newline after input() call"
  | cannotOpen path => "'" ++ path ++ "' could not be opened"
  | tooDeep => "maximum recursion depth exceeded"
  | interrupted => "keyboard interrupt"
  | defect name message => "unknown error: '" ++ name ++ ": " ++ message ++ "'"
  | raised _ message => message

/-- Whether the interpreter itself is at fault. Programs cannot handle such a fault. -/
def isDefect : Cause → Bool
  | defect .. => true
  | _ => false

/-- A numeral has too many digits for the interpreter, which does not even find out whether it is in
range. -/
def tooManyDigits (digits : Nat) : Cause :=
  .defect "ValueError" <|
    "Exceeds the limit (" ++ toString Decimal.maxDigits ++
    " digits) for integer string conversion: value has " ++ toString digits ++
    " digits; use sys.set_int_max_str_digits() to increase the limit"

end Cause

/-- A cause and the spans of the calls that it left, innermost first. -/
structure Fault where
  cause : Cause
  backtrace : List Span := []
  deriving DecidableEq, Repr

namespace Fault

/-- A fault at a place, if the place is known. -/
def at? (cause : Cause) (span : Option Span) : Fault :=
  ⟨cause, span.toList⟩

/-- Whether the interpreter itself is at fault. -/
def isDefect (fault : Fault) : Bool := fault.cause.isDefect

/-- The fault of a piece of text. A defect of the interpreter has no place. -/
def ofText (cause : Cause) (span : Span) : Fault :=
  ⟨cause, if cause.isDefect then [] else [span]⟩

/-- Records that the fault left the call at `span`. A call without a place, and a place that was
recorded last, add nothing. For a defect of the interpreter no calls are recorded. -/
def addFrame (fault : Fault) (span : Option Span) : Fault :=
  match span with
  | none => fault
  | some s =>
    if fault.isDefect ∨ fault.backtrace.getLast? = some s then fault
    else ⟨fault.cause, fault.backtrace ++ [s]⟩

/-- The innermost known place of a fault. -/
def origin (fault : Fault) : Option Span := fault.backtrace.head?

/-- The kind of the fault and what happened. -/
def text (fault : Fault) : String :=
  fault.cause.kind ++ "Error: " ++ fault.cause.message

@[simp]
theorem addFrame_none (fault : Fault) : fault.addFrame none = fault := rfl

/-- Where a fault passes does not change what happened. -/
@[simp]
theorem cause_addFrame (fault : Fault) (span : Option Span) :
    (fault.addFrame span).cause = fault.cause := by
  unfold addFrame
  split
  · rfl
  · split <;> rfl

@[simp]
theorem isDefect_addFrame (fault : Fault) (span : Option Span) :
    (fault.addFrame span).isDefect = fault.isDefect := by
  rw [isDefect, cause_addFrame, isDefect]

end Fault

end CallLang
