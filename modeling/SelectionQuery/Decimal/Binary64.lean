/-! # Finite double-precision values

A finite double is a sign, a significand below `2 ^ 53` and a power of two. Reading a decimal is
exact arithmetic on natural numbers followed by one rounding, so no machine float is involved.
-/
namespace SelectionQuery

/-- The value `± significand · 2 ^ exponent`. -/
structure Binary64 where
  negative : Bool
  significand : Nat
  exponent : Int
  deriving DecidableEq, Repr

namespace Binary64

/-- The exponent of the smallest positive value, shared by all subnormal values. -/
def minExponent : Int := -1074

/-- The exponent of the largest finite values. -/
def maxExponent : Int := 971

def leastNormal : Nat := 4503599627370496

def zero (negative : Bool) : Binary64 := ⟨negative, 0, minExponent⟩

/-- The quotient rounded to the nearest integer, a half going to the even one. -/
def roundDiv (num den : Nat) : Nat :=
  let quotient := num / den
  let twice := 2 * (num % den)
  if twice < den then quotient
  else if den < twice then quotient + 1
  else quotient + quotient % 2

/-- The largest `k` with `2 ^ k ≤ num / den`, for positive arguments. -/
def log2Div (num den : Nat) : Int :=
  let k : Int := (num.log2 : Int) - (den.log2 : Int)
  if num * Nat.pow 2 (-k).toNat < den * Nat.pow 2 k.toNat then k - 1 else k

/-- The double nearest to the positive quotient `num / den`, or `none` when that is past the
largest finite value. -/
def ofRatio? (negative : Bool) (num den : Nat) : Option Binary64 :=
  let exponent := max (log2Div num den - 52) minExponent
  let significand := roundDiv (num * Nat.pow 2 (-exponent).toNat) (den * Nat.pow 2 exponent.toNat)
  let rounded : Binary64 :=
    if significand = 2 * leastNormal then ⟨negative, leastNormal, exponent + 1⟩
    else ⟨negative, significand, exponent⟩
  if rounded.exponent ≤ maxExponent then some rounded else none

/-- The double nearest to `± digits · 10 ^ scale`, or `none` when that is past the largest finite
value. Values of at least `10 ^ 310` overflow and values below `10 ^ (-330)` vanish, so those are
answered before any power is computed. -/
def ofDecimal? (negative : Bool) (digits : Nat) (scale : Int) : Option Binary64 :=
  let magnitude : Int := (Nat.toDigits 10 digits).length + scale
  if digits = 0 then some (zero negative)
  else if 310 < magnitude then none
  else if magnitude < -330 then some (zero negative)
  else ofRatio? negative (digits * Nat.pow 10 scale.toNat) (Nat.pow 10 (-scale).toNat)

end Binary64
end SelectionQuery
