import CallLang.Action

/-!
# Conversions

Conversions between integers, truth values and strings.
-/

namespace CallLang.Builtin.Convert

/-- The integer that a value stands for. A string must be a numeral that is in range. -/
def toInt : Atom → Except Cause Atom
  | .int n => .ok (.int n)
  | .bool b => .ok (.int (if b then 1 else 0))
  | .string s =>
    match Decimal.ofText? s with
    | some n =>
      if Decimal.maxDigits < Decimal.digitCount s then
        .error (.tooManyDigits (Decimal.digitCount s))
      else if Fits n then .ok (.int n)
      else .error (.numeralTooLarge s)
    | none => .error (.noNumeral s)
  | a => .error (.wrongVariant a.display [.int, .bool, .string])

/-- The truth value that a value stands for. Zero is false, and a string must be a truth value. -/
def toBool : Atom → Except Cause Atom
  | .bool b => .ok (.bool b)
  | .int n => .ok (.bool (n != 0))
  | .string s =>
    if s = "true" then .ok (.bool true)
    else if s = "false" then .ok (.bool false)
    else .error (.noTruthValue s)
  | a => .error (.wrongVariant a.display [.bool, .int, .string])

/-- The text of a value that is no list, object or function. -/
def toText (a : Atom) : Except Cause Atom :=
  (a.expect [.int, .bool, .null, .string]).map fun a => .string a.display

end CallLang.Builtin.Convert
