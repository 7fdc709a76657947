/-!
# Builtin functions

The functions that every program starts with, sorted by the number of arguments that they take, and
the names that they are bound to. Two names of one builtin are bound to the same function.
-/

namespace CallLang

/-- A builtin without arguments. -/
inductive Nullary where
  | input
  | now
  | nowNanosPart
  deriving DecidableEq, Repr

/-- A builtin of one argument. -/
inductive Unary where
  | not
  | toInt
  | toString
  | toBool
  | printable
  | length
  | docOf
  | argcOf
  | typeIdOf
  | assert
  | recover
  | exit
  | eval
  | global
  | importModule
  | write
  | printFault
  deriving DecidableEq, Repr

/-- An operation on two integers. -/
inductive Arith where
  | add
  | sub
  | mul
  | div
  | rem
  | shl
  | shr
  | xor
  deriving DecidableEq, Repr

/-- A comparison of two integers. -/
inductive Comparison where
  | lt
  | le
  | gt
  | ge
  deriving DecidableEq, Repr

/-- A builtin of two arguments. -/
inductive Binary where
  | arith (op : Arith)
  | compare (op : Comparison)
  | or
  | and
  | equals
  | assertEq
  | assign
  | when
  | loop
  | raise
  | index
  | append
  | removeAt
  | getField
  deriving DecidableEq, Repr

/-- A builtin of three arguments. -/
inductive Ternary where
  | choose
  | replaceAt
  | forEach
  | setField
  deriving DecidableEq, Repr

/-- A builtin of any number of arguments. -/
inductive Variadic where
  | sequence
  | define
  | lambda
  | list
  | concat
  | print
  | newType
  | callMethod
  deriving DecidableEq, Repr

/-- A function that is part of the language. -/
inductive Builtin where
  | nullary (op : Nullary)
  | unary (op : Unary)
  | binary (op : Binary)
  | ternary (op : Ternary)
  | variadic (op : Variadic)
  deriving DecidableEq, Repr

/-- The names of the builtin, the most common one first. -/
def Nullary.names : Nullary → List String
  | .input => ["input"]
  | .now => ["now"]
  | .nowNanosPart => ["now_nanos_part"]

/-- The names of the builtin, the most common one first. -/
def Unary.names : Unary → List String
  | .not => ["!", "not"]
  | .toInt => ["int"]
  | .toString => ["string"]
  | .toBool => ["bool"]
  | .printable => ["printable"]
  | .length => ["len"]
  | .docOf => ["doc"]
  | .argcOf => ["argc"]
  | .typeIdOf => ["type_id"]
  | .assert => ["assert"]
  | .recover => ["catch"]
  | .exit => ["exit"]
  | .eval => ["eval"]
  | .global => ["global"]
  | .importModule => ["import"]
  | .write => ["write"]
  | .printFault => ["__builtin_print_catch"]

/-- The names of the builtin, the most common one first. -/
def Arith.names : Arith → List String
  | .add => ["+"]
  | .sub => ["-"]
  | .mul => ["*"]
  | .div => ["/"]
  | .rem => ["%"]
  | .shl => ["<<"]
  | .shr => [">>"]
  | .xor => ["^"]

/-- The names of the builtin, the most common one first. -/
def Comparison.names : Comparison → List String
  | .lt => ["<"]
  | .le => ["<="]
  | .gt => [">"]
  | .ge => [">="]

/-- The names of the builtin, the most common one first. -/
def Binary.names : Binary → List String
  | .arith op => op.names
  | .compare op => op.names
  | .or => ["||", "or"]
  | .and => ["&&", "and"]
  | .equals => ["==", "equals"]
  | .assertEq => ["assert_eq"]
  | .assign => ["=", "assign"]
  | .when => ["if"]
  | .loop => ["while"]
  | .raise => ["error"]
  | .index => ["index"]
  | .append => ["append"]
  | .removeAt => ["remove_at"]
  | .getField => [".", "getattr"]

/-- The names of the builtin, the most common one first. -/
def Ternary.names : Ternary → List String
  | .choose => ["ifelse"]
  | .replaceAt => ["replace_at"]
  | .forEach => ["for_in"]
  | .setField => ["->", "setattr"]

/-- The names of the builtin, the most common one first. -/
def Variadic.names : Variadic → List String
  | .sequence => ["_", "run"]
  | .define => ["def"]
  | .lambda => ["fn"]
  | .list => ["list"]
  | .concat => ["strconcat"]
  | .print => ["print"]
  | .newType => ["type"]
  | .callMethod => ["@", "call_method"]

/-- Every value of the type. -/
def Nullary.all : List Nullary :=
  [.input, .now, .nowNanosPart]

/-- Every value of the type. -/
def Unary.all : List Unary :=
  [.not, .toInt, .toString, .toBool, .printable, .length, .docOf, .argcOf, .typeIdOf, .assert,
    .recover, .exit, .eval, .global, .importModule, .write, .printFault]

/-- Every value of the type. -/
def Arith.all : List Arith :=
  [.add, .sub, .mul, .div, .rem, .shl, .shr, .xor]

/-- Every value of the type. -/
def Comparison.all : List Comparison :=
  [.lt, .le, .gt, .ge]

/-- Every value of the type. -/
def Binary.all : List Binary :=
  Arith.all.map .arith ++ Comparison.all.map .compare ++
    [.or, .and, .equals, .assertEq, .assign, .when, .loop, .raise, .index, .append,
    .removeAt, .getField]

/-- Every value of the type. -/
def Ternary.all : List Ternary :=
  [.choose, .replaceAt, .forEach, .setField]

/-- Every value of the type. -/
def Variadic.all : List Variadic :=
  [.sequence, .define, .lambda, .list, .concat, .print, .newType, .callMethod]

namespace Builtin

/-- The names that the builtin is bound to. -/
def names : Builtin → List String
  | nullary op => op.names
  | unary op => op.names
  | binary op => op.names
  | ternary op => op.names
  | variadic op => op.names

/-- The number of arguments that the builtin takes, or `none` if it takes any number. -/
def arity : Builtin → Option Nat
  | nullary _ => some 0
  | unary _ => some 1
  | binary _ => some 2
  | ternary _ => some 3
  | variadic _ => none

/-- Every builtin, once. -/
def all : List Builtin :=
  Nullary.all.map nullary ++ Unary.all.map unary ++ Binary.all.map binary ++
    Ternary.all.map ternary ++ Variadic.all.map variadic

/-- Every name of a builtin with the builtin that it is bound to. -/
def table : List (String × Builtin) :=
  all.flatMap fun b => b.names.map fun name => (name, b)

end Builtin

end CallLang
