import Aigate.JsonTree
import Mathlib.Data.Rat.Floor

/-!
# Numbers of JSON trees

The exact value of a number, and how values are rounded on their way out.
-/
namespace Aigate.JsonNumbers
open Text JsonTree

/-- The number that a decimal numeral stands for. -/
def decimalValue (x : Decimal) : ℚ :=
  let size : ℚ := x.whole + (ofDecimal x.fraction : ℚ) / 10 ^ x.fraction.length
  if x.negative then -size else size

/-- `json_number_value` of a value that `json_is_number` accepts. -/
def numberValue : Json → Option ℚ
  | .integer n => some n.toInt
  | .real x => some (decimalValue x)
  | _ => none

/-- `json_integer_value` of a value that `json_is_integer` accepts. -/
def integerValue : Json → Option ℤ
  | .integer n => some n.toInt
  | _ => none

def boolValue : Json → Option Bool
  | .bool b => some b
  | _ => none

/-- Rounding to the nearest whole number, halves away from zero. -/
def llround (q : ℚ) : ℤ := if 0 ≤ q then ⌊q + 1 / 2⌋ else -⌊-q + 1 / 2⌋

/-- The conversion `%.4f`, read back. -/
def fourDecimals (q : ℚ) : ℚ := llround (q * 10000) / 10000

end Aigate.JsonNumbers
