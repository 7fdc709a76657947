import CallLang.Fault

/-!
# Parameters of functions

A parameter is a name, possibly marked: `$name` is lazy and receives its argument unevaluated,
`[name]` is variadic and collects all remaining arguments, `[$name]` is both. A variadic parameter
comes last.
-/

namespace CallLang

/-- A formal parameter of a function. -/
structure Param where
  name : String
  variadic : Bool := false
  isLazy : Bool := false
  deriving DecidableEq, Repr

namespace Param

/-- The content of a text between brackets, if it has them. -/
def unbracket? : List Char → Option (List Char)
  | '[' :: cs =>
    match cs.reverse with
    | ']' :: inner => some inner.reverse
    | _ => none
  | _ => none

/-- The text of a lazy parameter without its mark. -/
def unmark? : List Char → Option (List Char)
  | '$' :: cs => some cs
  | _ => none

/-- Reads a parameter. Brackets are looked for before the mark of laziness, and what is left of the
text must not be empty. -/
def parse (text : String) : Except Cause Param :=
  let variadic := unbracket? text.toList
  let marked := variadic.getD text.toList
  let unmarked := unmark? marked
  let name := unmarked.getD marked
  if name.isEmpty then .error .emptyParameter
  else .ok ⟨String.ofList name, variadic.isSome, unmarked.isSome⟩

/-- A parameter as it is written. -/
def render (p : Param) : String :=
  let text := if p.isLazy then "$" ++ p.name else p.name
  if p.variadic then "[" ++ text ++ "]" else text

/-- Whether the last of the parameters is variadic. -/
def areVariadic (params : List Param) : Bool :=
  match params.getLast? with
  | some p => p.variadic
  | none => false

/-- The number of arguments that a function with these parameters takes, or `none` if the last
parameter collects any number of them. -/
def arity (params : List Param) : Option Nat :=
  if areVariadic params then none else some params.length

/-- The least number of arguments of a call. -/
def required (params : List Param) : Nat :=
  if areVariadic params then params.length - 1 else params.length

/-- Whether no parameter but the last is variadic. -/
def wellPlaced (params : List Param) : Bool :=
  params.dropLast.all (!·.variadic)

/-- Accepts a parameter list in which only the last one may be variadic. -/
def check (params : List Param) : Except Cause Unit :=
  if wellPlaced params then .ok () else .error .variadicNotLast

end Param

end CallLang
