import CallLang.Atom

/-!
# Texts of values

`Atom.display` is the text that a program prints. The fields of an object are shown sorted by their
names, so that the text does not tell in which order they were set.
-/

namespace CallLang

/-- The number of arguments in the text of a function. -/
def Callable.display (f : Callable) : String :=
  "<function>(" ++ (match f.arity with | none => "_" | some n => toString n) ++ ")"

/-- Named texts in the order of their names. -/
def sortByName (entries : List (String × String)) : List (String × String) :=
  entries.mergeSort fun a b => decide (a.1 ≤ b.1)

namespace Atom

mutual

/-- The text of a value, as it is printed. -/
def display : Atom → String
  | int n => Decimal.text n
  | bool true => "true"
  | bool false => "false"
  | null => "null"
  | string s => s
  | list xs => "[" ++ ", ".intercalate (displayAll xs) ++ "]"
  | object _ fields =>
    "\x7b" ++ ", ".intercalate ((sortByName (displayFields fields)).map fun field =>
      field.1 ++ ": " ++ field.2) ++ "\x7d"
  | function f => f.display

/-- The texts of several values. -/
def displayAll : List Atom → List String
  | [] => []
  | x :: xs => display x :: displayAll xs

/-- The texts of the values of fields. -/
def displayFields : List (String × Atom) → List (String × String)
  | [] => []
  | (name, value) :: fields => (name, display value) :: displayFields fields

end

/-- The program text of a value. Strings have no escapes, so this is exact for every string that a
program can write down, and for integers, truth values and `null`. -/
def literal : Atom → String
  | string s => "\"" ++ s ++ "\""
  | a => a.display

/-- Accepts a value that is of one of the given variants. -/
def expect (a : Atom) (variants : List Variant) : Except Cause Atom :=
  if a.variant ∈ variants then .ok a else .error (.wrongVariant a.display variants)

theorem displayAll_eq_map (xs : List Atom) : displayAll xs = xs.map display := by
  induction xs with
  | nil => rfl
  | cons x xs ih => simp [displayAll, ih]

theorem displayFields_eq_map (fields : List (String × Atom)) :
    displayFields fields = fields.map fun field => (field.1, field.2.display) := by
  induction fields with
  | nil => rfl
  | cons field fields ih => simp [displayFields, ih]

end Atom

end CallLang
