import Mathlib.Data.Rat.Floor
import Mathlib.Tactic.Common

/-!
# Floating-point arithmetic

A finite `f64` is the rational it denotes, and an operation rounds its exact result. The rounding is
a parameter (`F64`): results that do not depend on it hold for IEEE arithmetic and for exact
rationals alike. `F64.binary64` is rounding to the nearest binary64 value, ties to even; overflow to
infinity and NaN have no value here.
-/

namespace Lib

/-- The rounding of floating-point results. -/
class F64 where
  round : ℚ → ℚ

namespace F64

section ops
variable [F64]

/-- `a + b`. -/
def add (a b : ℚ) : ℚ := round (a + b)

/-- `a - b`. -/
def sub (a b : ℚ) : ℚ := round (a - b)

/-- `a * b`. -/
def mul (a b : ℚ) : ℚ := round (a * b)

/-- `a / b`. -/
def div (a b : ℚ) : ℚ := round (a / b)

/-- `n as f64`. -/
def ofNat (n : ℕ) : ℚ := round n

end ops

/-- `x as usize`: the fraction is cut off, a negative value saturates at zero. -/
def toUsize (x : ℚ) : ℕ := ⌊x⌋.toNat

/-- `x.ceil() as usize`. -/
def ceilUsize (x : ℚ) : ℕ := ⌈x⌉.toNat

/-- `x.round() as usize`: halves go away from zero. -/
def roundUsize (x : ℚ) : ℕ := ⌊x + 1 / 2⌋.toNat

/-- Arithmetic that never rounds. -/
@[reducible] def exact : F64 := ⟨id⟩

/-- The nearest integer, ties to even. -/
def nearestEven (x : ℚ) : ℤ :=
  let f := ⌊x⌋
  if x - f < 1 / 2 then f
  else if x - f > 1 / 2 then f + 1
  else if f % 2 = 0 then f else f + 1

/-- The exponent `e` with `2 ^ e ≤ q < 2 ^ (e + 1)` of a positive rational. -/
def exponent (q : ℚ) : ℤ :=
  let e : ℤ := (Nat.log2 q.num.natAbs : ℤ) - Nat.log2 q.den
  if (2 : ℚ) ^ e ≤ q then e else e - 1

/-- Round to the nearest binary64 value, ties to even. -/
def roundBinary64 (q : ℚ) : ℚ :=
  if q = 0 then 0
  else
    let ulp : ℚ := 2 ^ max (exponent |q| - 52) (-1074)
    nearestEven (q / ulp) * ulp

/-- IEEE binary64 arithmetic on finite values. -/
instance binary64 : F64 := ⟨roundBinary64⟩

example : mul (roundBinary64 (7 / 10)) 10 = 7 := by decide +kernel

end F64
end Lib
