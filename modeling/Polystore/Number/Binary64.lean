/-
  Polystore/Number/Binary64.lean
  ==============================
  **The exact value of a double.**  Texts, casts and partition bounds all need
  to know which real number a `Float` is, not how some printer shows it.  A
  finite double is `± significand · 2 ^ exponent` with natural `significand`;
  `parts` reads that form off the sixty-four bits, and every rule of this
  library that rounds or prints works on it in exact natural-number arithmetic.
-/

namespace Polystore.Number

/-- What a double denotes. -/
inductive Parts where
  | nan
  | infinite (negative : Bool)
  | finite (negative : Bool) (significand : Nat) (exponent : Int)
deriving DecidableEq

/-- Read the interchange format: one sign bit, eleven exponent bits, fifty-two
    fraction bits.  An exponent field of zero marks the subnormal numbers, which
    have no implicit leading bit. -/
def Parts.ofBits (bits : Nat) : Parts :=
  let negative := bits.testBit 63
  let field : Nat := bits / Nat.pow 2 52 % Nat.pow 2 11
  let fraction := bits % Nat.pow 2 52
  if field = 2047 then
    if fraction = 0 then .infinite negative else .nan
  else if field = 0 then .finite negative fraction (-1074)
  else .finite negative (Nat.pow 2 52 + fraction) ((field : Int) - 1075)

/-- The exact value of `x`. -/
def parts (x : Float) : Parts := Parts.ofBits x.toBits.toNat

def signed (negative : Bool) (magnitude : Nat) : Int :=
  if negative then -(magnitude : Int) else magnitude

/-- The integer part of a finite double, rounding toward zero. -/
def Parts.truncate? : Parts → Option Int
  | .finite negative significand exponent =>
    some <| signed negative <|
      if 0 ≤ exponent then significand * Nat.pow 2 exponent.toNat
      else significand / Nat.pow 2 (-exponent).toNat
  | _ => none

/-- The value of a double that is a whole number. -/
def Parts.whole? : Parts → Option Int
  | .finite negative significand exponent =>
    if 0 ≤ exponent then some (signed negative (significand * Nat.pow 2 exponent.toNat))
    else if significand % Nat.pow 2 (-exponent).toNat = 0 then
      some (signed negative (significand / Nat.pow 2 (-exponent).toNat))
    else none
  | _ => none

/-- The smallest and the largest 64-bit signed integer. -/
def minInt64 : Int := -Int.pow 2 63

/-- See `minInt64`. -/
def maxInt64 : Int := Int.pow 2 63 - 1

/-- The 64-bit integer nearest to `i`: numbers out of range saturate. -/
def saturateInt64 (i : Int) : Int64 :=
  Int64.ofInt (max minInt64 (min maxInt64 i))

/-- An integer that fits in 64 bits. -/
def int64? (i : Int) : Option Int64 :=
  if minInt64 ≤ i ∧ i ≤ maxInt64 then some (Int64.ofInt i) else none

/-- An integer that fits in 32 bits. -/
def int32? (i : Int) : Option Int32 :=
  if -Int.pow 2 31 ≤ i ∧ i < Int.pow 2 31 then some (Int32.ofInt i) else none

end Polystore.Number
