/-
  Polystore/Optimizer/Quantity.lean
  =================================
  **The numbers of the cost model.**  Row counts and costs are computed with a
  handful of operations, collected here, so that the formulas can be read over
  any numbers that have them.  The optimizer runs on doubles.
-/

namespace Polystore

/-- Numbers in which rows and costs are counted. -/
class Quantity (α : Type) extends Add α, Sub α, Mul α, OfScientific α where
  /-- A number of things. -/
  ofNat : Nat → α
  /-- A statistic or a weight from the settings. -/
  ofFloat : Float → α
  less : α → α → Bool
  larger : α → α → α
  smaller : α → α → α
  /-- The logarithm to base two. -/
  log2 : α → α

namespace Quantity

/-- The larger of two doubles; what is not a number gives way, and of two equal
    ones the second is taken, so that zero is a lower bound without a sign. -/
def largerFloat (a b : Float) : Float :=
  if a.isNaN || a ≤ b then b else a

/-- The smaller of two doubles; what is not a number gives way, and of two equal
    ones the second is taken. -/
def smallerFloat (a b : Float) : Float :=
  if a.isNaN || b ≤ a then b else a

instance : Quantity Float where
  ofNat := Float.ofNat
  ofFloat := id
  less a b := a < b
  larger := largerFloat
  smaller := smallerFloat
  log2 := Float.log2

end Quantity

end Polystore
