import SelectionQuery.Decimal.Shortest

/-! # Layout of decimals

A decimal is written plainly while its leading digit stands at a moderate power of ten, and with
an explicit power of ten otherwise.
-/
namespace SelectionQuery

/-- The least and the greatest power of ten of a leading digit that is written plainly. -/
structure Layout where
  leastPlain : Int
  greatestPlain : Int

namespace Layout

/-- Plain digits around a point, with a zero where one side would be empty. -/
def plain (digits : List Char) (scale : Int) : List Char :=
  let leading : Int := digits.length + scale
  if 0 ≤ scale then digits ++ List.replicate scale.toNat '0' ++ ['.', '0']
  else if 0 < leading then digits.take leading.toNat ++ '.' :: digits.drop leading.toNat
  else '0' :: '.' :: List.replicate (-leading).toNat '0' ++ digits

/-- One digit before the point, the power of ten with its sign, and no point without a fraction. -/
def scientific (digits : List Char) (power : Int) : List Char :=
  let fraction := digits.drop 1
  digits.take 1 ++ (if fraction.isEmpty then [] else '.' :: fraction) ++
    'e' :: (if power < 0 then '-' else '+') :: Nat.toDigits 10 power.natAbs

def decimal (layout : Layout) (d : Decimal) : List Char :=
  let digits := Nat.toDigits 10 d.digits
  let power : Int := digits.length - 1 + d.scale
  if layout.leastPlain ≤ power ∧ power ≤ layout.greatestPlain then plain digits d.scale
  else scientific digits power

def binary64 (layout : Layout) (x : Binary64) : String :=
  String.ofList ((if x.negative then ['-'] else []) ++ layout.decimal x.shortest)

end Layout
end SelectionQuery
