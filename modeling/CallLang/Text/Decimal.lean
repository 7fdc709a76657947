/-!
# Decimal numerals and the range of integers

An integer is written in decimal digits, with a minus sign if it is negative. A numeral that is
read may also have a plus sign and leading zeros. Integers of the language are the ones that fit
into 64 bits with a sign.
-/

namespace CallLang

/-- The least integer of the language. -/
def minInt : Int := -9223372036854775808

/-- The greatest integer of the language. -/
def maxInt : Int := 9223372036854775807

/-- The integers that fit into 64 bits with a sign. -/
def Fits (n : Int) : Prop := minInt ≤ n ∧ n ≤ maxInt

instance (n : Int) : Decidable (Fits n) :=
  inferInstanceAs (Decidable (minInt ≤ n ∧ n ≤ maxInt))

namespace Decimal

/-- Whether a character is one of the ten decimal digits. -/
def isDigit (c : Char) : Bool := '0' ≤ c && c ≤ '9'

/-- The number that a digit stands for. -/
def digitValue (c : Char) : Nat := c.toNat - '0'.toNat

/-- The number that a list of digits stands for. -/
def valueOfDigits (cs : List Char) : Nat :=
  cs.foldl (fun value c => 10 * value + digitValue c) 0

/-- Whether `cs` is a non-empty list of digits. -/
def areDigits (cs : List Char) : Bool := !cs.isEmpty && cs.all isDigit

/-- Reads a numeral: an optional sign and at least one digit, nothing else. -/
def read? : List Char → Option Int
  | '-' :: cs => if areDigits cs then some (-(valueOfDigits cs : Int)) else none
  | '+' :: cs => if areDigits cs then some (valueOfDigits cs) else none
  | cs => if areDigits cs then some (valueOfDigits cs) else none

/-- Writes an integer without leading zeros. -/
def write (n : Int) : List Char :=
  match n with
  | .ofNat m => Nat.toDigits 10 m
  | .negSucc m => '-' :: Nat.toDigits 10 (m + 1)

/-- Reads a whole text as a numeral. -/
def ofText? (text : String) : Option Int := read? text.toList

/-- The most digits that a numeral can have for the interpreter to read it. -/
def maxDigits : Nat := 4300

/-- The number of digits of a text, leading zeros among them. -/
def digitCount (text : String) : Nat := text.toList.countP isDigit

/-- The text of an integer. -/
def text (n : Int) : String := String.ofList (write n)

end Decimal

end CallLang
