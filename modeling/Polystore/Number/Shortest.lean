import Polystore.Number.Binary64

/-
  Polystore/Number/Shortest.lean
  ==============================
  **Decimals for doubles.**  Two ways to turn the exact value of a double into
  decimal digits, both in exact arithmetic:

  * `shortest` gives the fewest digits that still read back as the same double,
    and of those the decimal nearest to it;
  * `scaled` rounds to a fixed number of places.

  For `shortest` the reals that round to the double form an interval.  A decimal
  with few digits lies on a coarse grid `10 ^ p`, so the grids are tried from
  the coarsest on: the first grid with a point in the interval has the fewest
  digits, and one of the two neighbours of the value on that grid is such a
  point.
-/

namespace Polystore.Number

/-- The non-negative decimal `digits · 10 ^ exponent`. -/
structure Decimal where
  digits : Nat
  exponent : Int
deriving DecidableEq

/-- Which of two equally near decimals is taken. -/
inductive Tie where
  | up
  | even
deriving DecidableEq

/-- Choose between `low` and `low + 1`, given on which side of the middle the
    value lies. -/
def Tie.choose (tie : Tie) (low : Nat) (side : Ordering) : Nat :=
  match side, tie with
  | .lt, _ => low
  | .gt, _ => low + 1
  | .eq, .up => low + 1
  | .eq, .even => low + low % 2

/-- `num / den` rounded to a natural number. -/
def roundDiv (tie : Tie) (num den : Nat) : Nat :=
  tie.choose (num / den) (compare (2 * (num % den)) den)

/-- The reals that round to a double, in units of a quarter of the distance to
    the next larger one: the value is `centre`, and the ends belong to the
    interval exactly when the significand is even. -/
structure Interval where
  low : Nat
  centre : Nat
  high : Nat
  closed : Bool

/-- The interval of `significand · 2 ^ exponent`.  Below a power of two the
    spacing halves, except at the bottom of the range. -/
def Interval.of (significand : Nat) (exponent : Int) : Interval :=
  let below := if significand = Nat.pow 2 52 ∧ -1074 < exponent then 1 else 2
  { low := 4 * significand - below
    centre := 4 * significand
    high := 4 * significand + 2
    closed := significand % 2 = 0 }

/-- The decimal on the grid `10 ^ p` that reads back, if there is one.  `unit`
    and `step` are the interval's unit and the grid's step over a common
    denominator. -/
def Interval.onGrid? (i : Interval) (tie : Tie) (unit step : Nat) : Option Nat :=
  let inside (d : Nat) : Bool :=
    if i.closed then i.low * unit ≤ d * step && d * step ≤ i.high * unit
    else i.low * unit < d * step && d * step < i.high * unit
  let value := i.centre * unit
  let low := value / step
  match inside low, inside (low + 1) with
  | true, true => some (roundDiv tie value step)
  | true, false => some low
  | false, true => some (low + 1)
  | false, false => none

/-- Test one grid for the positive double `significand · 2 ^ exponent`. -/
def decimalOnGrid? (tie : Tie) (significand : Nat) (exponent p : Int) : Option Decimal :=
  let quarter := exponent - 2
  let unit := Nat.pow 2 quarter.toNat * Nat.pow 10 (-p).toNat
  let step := Nat.pow 2 (-quarter).toNat * Nat.pow 10 p.toNat
  ((Interval.of significand exponent).onGrid? tie unit step).map (⟨·, p⟩)

/-- A power of ten above `significand · 2 ^ exponent`, not far from it.  The
    fraction 30103/100000 is just above the logarithm of two. -/
def topGrid (significand : Nat) (exponent : Int) : Int :=
  ((significand.log2 + 1 : Int) + exponent) * 30103 / 100000 + 1

/-- The shortest decimal that reads back as `significand · 2 ^ exponent`.
    Seventeen digits always do, so a hit comes within the first grids. -/
def shortest (tie : Tie) (significand : Nat) (exponent : Int) : Decimal :=
  if significand = 0 then ⟨0, 0⟩
  else
    let top := topGrid significand exponent
    ((List.range 20).findSome? fun (i : Nat) => decimalOnGrid? tie significand exponent (top - i)).getD
      ⟨significand, exponent⟩

/-- `significand · 2 ^ exponent · 10 ^ places`, rounded to the nearest natural
    number. -/
def scaled (tie : Tie) (significand : Nat) (exponent : Int) (places : Nat) : Nat :=
  roundDiv tie (significand * Nat.pow 10 places * Nat.pow 2 exponent.toNat)
    (Nat.pow 2 (-exponent).toNat)

end Polystore.Number
