import RemoteDevbox.Lib.Py.Value
import Mathlib.Data.Rat.Floor

/-!
# Arithmetic of doubles

How a rational is rounded to a double is left open; comparisons are exact.
-/

namespace Py.Double

section

variable (round : ℚ → Double)

/-- `z / n` of a whole number and a positive one. -/
def quotient (z : ℤ) (n : ℕ) : Py Double :=
  if Value.floatLimit * n ≤ z.natAbs then .error .overflowError else .ok (round (z / n))

/-- A whole number as an operand of an operation on doubles. -/
def ofInt (z : ℤ) : Py Double := quotient round z 1

def sign : Double → ℤ
  | fin q => if 0 < q then 1 else if q < 0 then -1 else 0
  | inf => 1
  | ninf => -1
  | nan => 0

/-- A product or a sum whose size is infinite. -/
def infinite (sign : ℤ) : Double := if 0 < sign then inf else if sign < 0 then ninf else nan

def mul : Double → Double → Double
  | nan, _ => nan
  | _, nan => nan
  | fin p, fin q => round (p * q)
  | x, y => infinite (x.sign * y.sign)

def sub : Double → Double → Double
  | nan, _ => nan
  | _, nan => nan
  | fin p, fin q => round (p - q)
  | fin _, y => infinite (-y.sign)
  | x, fin _ => x
  | x, y => if x.sign = y.sign then nan else x

/-- Division by a positive whole number. -/
def dividedBy (x : Double) (n : ℕ) : Double :=
  match x with
  | fin q => round (q / n)
  | x => x

end

/-- `x <= y` -/
def le : Double → Double → Bool
  | nan, _ => false
  | _, nan => false
  | ninf, _ => true
  | _, inf => true
  | fin p, fin q => decide (p ≤ q)
  | _, _ => false

/-- `x < y` -/
def lt (x y : Double) : Bool := x.le y && !y.le x

/-- `int(x)` -/
def trunc : Double → Py ℤ
  | fin q => .ok (if 0 ≤ q then ⌊q⌋ else ⌈q⌉)
  | nan => .error .valueError
  | _ => .error .overflowError

end Py.Double
