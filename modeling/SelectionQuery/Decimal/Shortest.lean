import SelectionQuery.Decimal.Binary64

/-! # Shortest decimals

The decimal of a double is the point of the coarsest decimal grid that still reads back as that
double; of two such points the nearer one, and of two equally near the one with the even last
digit. A grid coarser than the result has no point that reads back, so the result has no trailing
zero.
-/
namespace SelectionQuery

/-- The value `digits · 10 ^ scale`. -/
structure Decimal where
  digits : Nat
  scale : Int
  deriving DecidableEq, Repr

namespace Binary64

/-- The interval of reals that round to a double. Its bounds and the double itself are counted in
quarters of the unit in the last place. -/
structure Interval where
  lower : Nat
  middle : Nat
  upper : Nat
  closed : Bool

/-- Half a unit to either side, a quarter below a power of two, where the values lie closer. The
bounds belong to the interval when the significand is even. -/
def interval (x : Binary64) : Interval where
  lower :=
    if x.significand = leastNormal ∧ minExponent < x.exponent then 4 * x.significand - 1
    else 4 * x.significand - 2
  middle := 4 * x.significand
  upper := 4 * x.significand + 2
  closed := x.significand % 2 = 0

/-- The point of the grid of multiples of `10 ^ scale` that reads back as `x`, if there is one. -/
def gridPoint? (x : Binary64) (scale : Int) : Option Decimal :=
  let bounds := x.interval
  let quarter := x.exponent - 2
  let step := Nat.pow 10 scale.toNat * Nat.pow 2 (-quarter).toNat
  let unit := Nat.pow 10 (-scale).toNat * Nat.pow 2 quarter.toNat
  let inside (n : Nat) : Bool :=
    if bounds.closed then bounds.lower * unit ≤ n * step && n * step ≤ bounds.upper * unit
    else bounds.lower * unit < n * step && n * step < bounds.upper * unit
  let below := bounds.middle * unit / step
  let above := below + 1
  let fromBelow := bounds.middle * unit - below * step
  let fromAbove := above * step - bounds.middle * unit
  match inside below, inside above with
  | false, false => none
  | true, false => some ⟨below, scale⟩
  | false, true => some ⟨above, scale⟩
  | true, true =>
    if fromBelow < fromAbove then some ⟨below, scale⟩
    else if fromAbove < fromBelow then some ⟨above, scale⟩
    else some ⟨below + below % 2, scale⟩

/-- The shortest decimal of the magnitude of `x`. No double reaches `10 ^ 309`, and every positive
double lies on a grid no finer than the last one tried. -/
def shortest (x : Binary64) : Decimal :=
  if x.significand = 0 then ⟨0, 0⟩
  else ((List.range 660).findSome? fun (i : Nat) => x.gridPoint? (309 - i)).getD ⟨0, 0⟩

end Binary64
end SelectionQuery
