import CallLang.Builtin.Doc
import CallLang.Param

/-!
# Values and expressions

The values of the language are called atoms. Functions are atoms, and a function owns the expression
that it evaluates, so values, functions and expressions are defined together.

Atoms are immutable. Every function carries a stamp, so that two evaluations of one definition give
two different functions, and a copy of a function is not the function itself.
-/

namespace CallLang

/-- What tells functions apart. The functions of the language have the empty stamp, a function that
a program defines and a constructor have a number of their own, and an unevaluated argument has the
time when it was passed. A copy has one more number in front. -/
abbrev Stamp := List Nat

mutual

/-- A value of the language. -/
inductive Atom where
  | int (value : Int)
  | bool (value : Bool)
  | null
  | string (value : String)
  | list (elements : List Atom)
  /-- Field names with their values, tagged with the type that made the object. -/
  | object (typeId : Nat) (fields : List (String × Atom))
  | function (f : Callable)

/-- A value that can be called. -/
inductive Callable where
  /-- A function of the language. -/
  | builtin (stamp : Stamp) (b : Builtin)
  /-- A function defined by a program. -/
  | closure (stamp : Stamp) (doc : String) (params : List Param) (body : Node)
  /-- An argument that was passed unevaluated, with the number of scopes that it can see. -/
  | thunk (stamp : Stamp) (argument : Node) (depth : Nat)
  /-- The function that makes the objects of a type from its required fields. -/
  | constructor (stamp : Stamp) (doc : String) (required : List String)
      (defaults : List (String × Atom)) (typeId : Nat)

/-- An expression. The span says where it was written. -/
inductive Node where
  | literal (value : Atom) (span : Option Span)
  | var (name : String) (span : Option Span)
  /-- A call with its unevaluated arguments and the comments directly before it. -/
  | call (name : String) (args : List Node) (doc : String) (span : Option Span)

end

/-- Where an expression was written. -/
def Node.span : Node → Option Span
  | literal _ span => span
  | var _ span => span
  | call _ _ _ span => span

/-- The name that an expression consists of, if it is a bare name. -/
def Node.name? : Node → Option String
  | var name _ => some name
  | _ => none

namespace Callable

/-- The number of arguments that a function takes, or `none` if it takes any number. -/
def arity : Callable → Option Nat
  | builtin _ b => b.arity
  | closure _ _ params _ => Param.arity params
  | thunk _ _ _ => some 0
  | constructor _ _ required _ _ => some required.length

/-- The documentation of a function. -/
def doc : Callable → String
  | builtin _ b => b.doc
  | closure _ doc _ _ => doc
  | thunk _ _ _ => ""
  | constructor _ doc _ _ _ => doc

/-- Accepts a call of a function of the given arity with `found` arguments. The name, if there is
one, only serves the message. -/
def checkArity (arity : Option Nat) (found : Nat) (name : String) : Except Cause Unit :=
  match arity with
  | none => .ok ()
  | some expected =>
    if expected = found then .ok () else .error (.arity expected found name)

end Callable

namespace Atom

/-- The variant of a value. -/
def variant : Atom → Variant
  | int _ => .int
  | bool _ => .bool
  | null => .null
  | string _ => .string
  | list _ => .list
  | object _ _ => .object
  | function _ => .function

/-- The first type id that a program's own types get. -/
def firstTypeId : Nat := 6

/-- The type id of a value: a number per variant, and the one of its type for an object. -/
def typeId : Atom → Nat
  | int _ => 0
  | bool _ => 1
  | null => 2
  | list _ => 3
  | string _ => 4
  | function _ => 5
  | object typeId _ => typeId

/-- Whether a value is an integer. -/
def isInt : Atom → Bool
  | int _ => true
  | _ => false

/-- Accepts an integer that fits into 64 bits. -/
def checkInt (n : Int) : Except Cause Atom :=
  if Fits n then .ok (int n) else .error (.outOfRange n)

end Atom

end CallLang
