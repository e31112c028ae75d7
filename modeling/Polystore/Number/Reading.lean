import Polystore.Number.Binary64

/-
  Polystore/Number/Reading.lean
  =============================
  **Numbers from text.**  The grammars accepted where a user writes a number: an
  optional sign followed by decimal digits for integers, and for doubles also a
  fraction, an exponent and the names of the non-finite values.  A grammar takes
  the whole text or refuses it; surrounding blanks are the caller's business.
-/

namespace Polystore.Number

/-- The value of a list of decimal digits. -/
def digitsValue (digits : List Char) : Nat :=
  digits.foldl (fun n c => 10 * n + (c.toNat - '0'.toNat)) 0

/-- Take the sign off a numeral. -/
def splitSign : List Char → Bool × List Char
  | '-' :: rest => (true, rest)
  | '+' :: rest => (false, rest)
  | rest => (false, rest)

/-- Non-empty decimal digits. -/
def readNat? (cs : List Char) : Option Nat :=
  if !cs.isEmpty && cs.all Char.isDigit then some (digitsValue cs) else none

/-- Optional sign, then decimal digits. -/
def readInt? (cs : List Char) : Option Int :=
  let (negative, rest) := splitSign cs
  (readNat? rest).map (signed negative)

/-- The exponent part of a double, empty or `e` with a signed integer. -/
def readExponent? : List Char → Option Int
  | [] => some 0
  | c :: rest => if c = 'e' ∨ c = 'E' then readInt? rest else none

/-- The magnitude of a double: digits with at most one point, at least one
    digit, and an optional exponent.  The value is the double nearest to the
    decimal, infinite above the finite range. -/
def readMagnitude? (cs : List Char) : Option Float :=
  let (whole, rest) := cs.span Char.isDigit
  let (fraction, rest) :=
    match rest with
    | '.' :: rest => rest.span Char.isDigit
    | rest => ([], rest)
  if whole.isEmpty && fraction.isEmpty then none
  else
    (readExponent? rest).map fun exponent =>
      let scale : Int := exponent - (fraction.length : Int)
      Float.ofScientific (digitsValue (whole ++ fraction)) (decide (scale < 0)) scale.natAbs

/-- A double: signed digits, or one of the names `inf`, `infinity` and `nan` in
    any case. -/
def readFloat? (cs : List Char) : Option Float :=
  let (negative, rest) := splitSign cs
  let word := rest.map Char.toLower
  let magnitude? :=
    if word = ['i', 'n', 'f'] ∨ word = ['i', 'n', 'f', 'i', 'n', 'i', 't', 'y'] then
      some (1.0 / 0.0)
    else if word = ['n', 'a', 'n'] then some (0.0 / 0.0)
    else readMagnitude? rest
  magnitude?.map fun x => if negative then -x else x

end Polystore.Number
