import CallLang.Builtin
import CallLang.Fault

/-!
# Integer arithmetic

Operations on integers that fit into 64 bits with a sign. A result that does not fit is a fault, and
so is a division by zero; shifts and exclusive or work on the 64 bits.
-/

namespace CallLang

/-- The number of bits of an integer. -/
def wordBits : Nat := 64

/-- The number of different integers of that many bits. -/
def words : Int := 18446744073709551616

/-- Division that rounds toward zero: the quotient of the absolute values, with a minus sign if just
one of the two numbers is negative. -/
def truncatedDiv (a b : Int) : Int :=
  let quotient : Int := (a.natAbs / b.natAbs : Nat)
  if a < 0 ↔ b < 0 then quotient else -quotient

theorem truncatedDiv_eq_tdiv (a b : Int) : truncatedDiv a b = a.tdiv b := by
  have nonneg (n : Nat) : ¬(n : Int) < 0 := by omega
  cases a <;> cases b <;> simp [truncatedDiv, Int.tdiv, nonneg]

/-- The exclusive or of integers in two's complement without a limit on the bits. -/
def xorInt : Int → Int → Int
  | .ofNat m, .ofNat n => .ofNat (m ^^^ n)
  | .ofNat m, .negSucc n => .negSucc (m ^^^ n)
  | .negSucc m, .ofNat n => .negSucc (m ^^^ n)
  | .negSucc m, .negSucc n => .ofNat (m ^^^ n)

/-- The integer whose lowest 64 bits, read with a sign, are those of `n`. -/
def wrap (n : Int) : Int :=
  let low := n % words
  if maxInt < low then low - words else low

namespace Arith

/-- The operator of an operation in messages. -/
def symbol : Arith → String
  | add => "+"
  | sub => "-"
  | mul => "*"
  | div => "/"
  | rem => "%"
  | shl => "<<"
  | shr => ">>"
  | xor => "^"

/-- A result, if it fits. -/
def checked (op : Arith) (n : Int) : Except Cause Int :=
  if Fits n then .ok n else .error (.operationOverflow op.symbol)

/-- The amount of a shift, if it is less than the number of bits. -/
def shiftAmount (op : Arith) (amount : Int) : Except Cause Nat :=
  if amount < 0 then .error (.negativeShift op.symbol amount)
  else if wordBits ≤ amount then .error (.shiftTooLarge op.symbol)
  else .ok amount.toNat

/-- The result of an operation. Division rounds toward zero, and the remainder has the sign of the
dividend; it fails where the division would. -/
def apply (op : Arith) (a b : Int) : Except Cause Int :=
  match op with
  | add => checked .add (a + b)
  | sub => checked .sub (a - b)
  | mul => checked .mul (a * b)
  | div => if b = 0 then .error .divisionByZero else checked .div (truncatedDiv a b)
  | rem =>
    if b = 0 then .error .remainderByZero
    else do
      let quotient ← checked .rem (truncatedDiv a b)
      .ok (a - b * quotient)
  | shl => do
    let amount ← shiftAmount .shl b
    .ok (wrap (a <<< amount))
  | shr => do
    let amount ← shiftAmount .shr b
    .ok (a >>> amount)
  | xor => .ok (xorInt a b)

end Arith

/-- Whether a comparison holds. -/
def Comparison.holds (op : Comparison) (a b : Int) : Bool :=
  match op with
  | lt => a < b
  | le => a ≤ b
  | gt => a > b
  | ge => a ≥ b

end CallLang
