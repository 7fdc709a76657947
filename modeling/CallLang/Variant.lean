/-!
# Variants of values

A value of the language is of one of seven variants. Their names appear in type faults.
-/

namespace CallLang

/-- The variants of values. -/
inductive Variant where
  | int
  | bool
  | null
  | list
  | string
  | function
  | object
  deriving DecidableEq, Repr

/-- The name of a variant, as programs see it in messages. -/
def Variant.name : Variant → String
  | int => "Int"
  | bool => "Bool"
  | null => "Null"
  | list => "List"
  | string => "String"
  | function => "Function"
  | object => "Object"

end CallLang
