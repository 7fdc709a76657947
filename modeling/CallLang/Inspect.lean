import CallLang.Node.Printer
import CallLang.Run
import CallLang.Text.Quoted

/-!
# Inspection

The forms in which debugging output shows tokens, expressions, values and outcomes.
-/

namespace CallLang

/-- The number of arguments of a function in debugging output. -/
def inspectArity : Option Nat → String
  | some n => toString n
  | none => "None"

/-- A function in debugging output. -/
def Callable.inspect (f : Callable) : String :=
  "Function(argc=" ++ inspectArity f.arity ++ ", doc=" ++ quoted f.doc ++ ")"

namespace Atom

mutual

/-- A value in debugging output. -/
def inspect : Atom → String
  | int n => Decimal.text n
  | bool true => "True"
  | bool false => "False"
  | null => "None"
  | string s => quoted s
  | list xs => "[" ++ ", ".intercalate (inspectAll xs) ++ "]"
  | object typeId fields =>
    "Object(\x7b" ++ ", ".intercalate (inspectFields fields) ++ "\x7d, ty_id=" ++
      toString typeId ++ ")"
  | function f => f.inspect

/-- Several values in debugging output. -/
def inspectAll : List Atom → List String
  | [] => []
  | x :: xs => inspect x :: inspectAll xs

/-- Fields in debugging output. -/
def inspectFields : List (String × Atom) → List String
  | [] => []
  | (name, value) :: fields => (quoted name ++ ": " ++ inspect value) :: inspectFields fields

end

end Atom

/-- A token in debugging output. -/
def Token.inspect (token : Token) : String :=
  match token.lexeme with
  | .opening => "Token(LEFT_PAREN)"
  | .closing => "Token(RIGHT_PAREN)"
  | .comma => "Token(COMMA)"
  | .comment text => "Token(COMMENT, " ++ quoted text ++ ")"
  | .atom value => "Token(ATOM, " ++ value.inspect ++ ")"
  | .name text => "Token(NAME, " ++ quoted text ++ ")"

/-- An expression in debugging output. -/
def Node.inspect (node : Node) : String :=
  (match node with
    | .literal .. => "Literal("
    | .var .. => "Variable("
    | .call .. => "FunctionCall(") ++ quoted node.render ++ ")"

/-- A parameter in debugging output. -/
def Param.inspect (param : Param) : String :=
  "Parameter(" ++ param.render ++ ")"

/-- A fault in debugging output. -/
def Fault.inspect (fault : Fault) : String :=
  "GenericException(" ++ quoted fault.cause.kind ++ ", " ++ quoted fault.cause.message ++ ")"

/-- An outcome in debugging output. -/
def Outcome.inspect : Outcome → String
  | .ok value => "Result(value=" ++ value.inspect ++ ")"
  | .error fault => "Result(exception=" ++ fault.inspect ++ ")"

end CallLang
