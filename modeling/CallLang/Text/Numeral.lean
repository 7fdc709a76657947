import CallLang.Text.Blank
import CallLang.Text.Decimal

/-!
# Numerals of all scripts

A number on the command line may be written in the decimal digits of any script, with a sign, with
white space around it and with single underscores between its digits. In program text a number has
none of this freedom (see `Decimal`).
-/

namespace CallLang

/-- The zeros of all scripts that have decimal digits, by Unicode 14. The other digits of a script
follow its zero in order. -/
def scriptZeros : List Nat :=
  [
    0x30, 0x660, 0x6f0, 0x7c0, 0x966, 0x9e6, 0xa66, 0xae6, 0xb66, 0xbe6, 0xc66, 0xce6, 0xd66, 0xde6,
    0xe50, 0xed0, 0xf20, 0x1040, 0x1090, 0x17e0, 0x1810, 0x1946, 0x19d0, 0x1a80, 0x1a90, 0x1b50,
    0x1bb0, 0x1c40, 0x1c50, 0xa620, 0xa8d0, 0xa900, 0xa9d0, 0xa9f0, 0xaa50, 0xabf0, 0xff10, 0x104a0,
    0x10d30, 0x11066, 0x110f0, 0x11136, 0x111d0, 0x112f0, 0x11450, 0x114d0, 0x11650, 0x116c0,
    0x11730, 0x118e0, 0x11950, 0x11c50, 0x11d50, 0x11da0, 0x16a60, 0x16ac0, 0x16b50, 0x1d7ce,
    0x1d7d8, 0x1d7e2, 0x1d7ec, 0x1d7f6, 0x1e140, 0x1e2f0, 0x1e950, 0x1fbf0]

/-- The number that a decimal digit of any script stands for. -/
def scriptDigit? (c : Char) : Option Nat :=
  (scriptZeros.find? fun start => start ≤ c.toNat && c.toNat < start + 10).map fun start =>
    c.toNat - start

/-- Whether a character is a decimal digit of any script. -/
def isScriptDigit (c : Char) : Bool := (scriptDigit? c).isSome

namespace Numeral

/-- The white space that may stand around a numeral: all but the information separators. -/
def isMargin (c : Char) : Bool :=
  isBlank c && !(0x1c ≤ c.toNat && c.toNat ≤ 0x1f)

/-- `cs` without the white space around it. -/
def trim (cs : List Char) : List Char :=
  ((cs.dropWhile isMargin).reverse.dropWhile isMargin).reverse

/-- Reads the digits that follow the digits of `value`. An underscore must have a digit on each
side. -/
def readOn (value : Nat) : List Char → Option Nat
  | [] => some value
  | '_' :: c :: cs => (scriptDigit? c).bind fun d => readOn (10 * value + d) cs
  | c :: cs => (scriptDigit? c).bind fun d => readOn (10 * value + d) cs

/-- Reads digits. There must be one. -/
def readDigits : List Char → Option Nat
  | [] => none
  | c :: cs => (scriptDigit? c).bind fun d => readOn d cs

/-- Reads a numeral. It may not have more digits than any other one. -/
def read? (cs : List Char) : Option Int :=
  if Decimal.maxDigits < cs.countP isScriptDigit then none
  else
    match trim cs with
    | '-' :: cs => (readDigits cs).map fun n => -(n : Int)
    | '+' :: cs => (readDigits cs).map fun n => (n : Int)
    | cs => (readDigits cs).map fun n => (n : Int)

end Numeral

end CallLang
