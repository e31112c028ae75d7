import Polystore.Number.Shortest

/-
  Polystore/Number/Layout.lean
  ============================
  **How a double is written.**  The digits come from `Shortest`; a `Layout` says
  what is done with them: which magnitudes are written positionally, whether a
  whole number keeps `.0`, how an exponent is marked.  The texts of this library
  differ only in the layout they pass, and `fixedPlaces` is the one form that
  rounds.
-/

namespace Polystore.Number

/-- Decisions of one written form. -/
structure Layout where
  /-- Which of two equally near shortest decimals is written. -/
  tie : Tie
  /-- Whether a number whose leading digit stands for `10 ^ k` is written
      without an exponent. -/
  positional : Int → Bool
  /-- Whether a whole number written positionally ends in `.0`. -/
  pointZero : Bool
  /-- Whether a positive exponent carries its sign. -/
  plusExponent : Bool

/-- The digits of `n` in base ten. -/
def digitsOf (n : Nat) : List Char := Nat.toDigits 10 n

/-- The decimal text of a natural number. -/
def natText (n : Nat) : String := String.ofList (digitsOf n)

/-- The decimal text of an integer. -/
def intText (i : Int) : String :=
  String.ofList <|
    match i with
    | .ofNat n => digitsOf n
    | .negSucc n => '-' :: digitsOf (n + 1)

/-- A decimal without exponent. -/
def positionalText (pointZero : Bool) (d : Decimal) : List Char :=
  let digits := digitsOf d.digits
  if 0 ≤ d.exponent then
    digits ++ List.replicate d.exponent.toNat '0' ++ (if pointZero then ['.', '0'] else [])
  else
    let places := (-d.exponent).toNat
    let padded := List.replicate (places + 1 - digits.length) '0' ++ digits
    padded.take (padded.length - places) ++ '.' :: padded.drop (padded.length - places)

/-- A decimal with one digit before the point and an exponent. -/
def exponentText (plus : Bool) (d : Decimal) : List Char :=
  let digits := digitsOf d.digits
  let exponent := d.exponent + (digits.length - 1)
  let mantissa :=
    match digits with
    | [] => []
    | [lead] => [lead]
    | lead :: rest => lead :: '.' :: rest
  mantissa ++ 'e' :: (if plus && 0 ≤ exponent then ['+'] else []) ++ (intText exponent).toList

/-- Write a non-negative decimal; zero counts as positional. -/
def Layout.decimal (layout : Layout) (d : Decimal) : List Char :=
  let leading := d.exponent + ((digitsOf d.digits).length - 1)
  if d.digits = 0 ∨ layout.positional leading then positionalText layout.pointZero d
  else exponentText layout.plusExponent d

def Layout.render (layout : Layout) (x : Float) : String :=
  match parts x with
  | .nan => "NaN"
  | .infinite negative => if negative then "-inf" else "inf"
  | .finite negative significand exponent =>
    String.ofList <| (if negative then ['-'] else []) ++
      layout.decimal (shortest layout.tie significand exponent)

/-- `x` rounded to `places` digits after the point; an exact half goes to the
    even neighbour. -/
def fixedPlaces (places : Nat) (x : Float) : String :=
  match parts x with
  | .nan => "NaN"
  | .infinite negative => if negative then "-inf" else "inf"
  | .finite negative significand exponent =>
    String.ofList <| (if negative then ['-'] else []) ++
      positionalText false ⟨scaled .even significand exponent places, -(places : Int)⟩

/-- Plain text: never an exponent, no `.0`. -/
def plain : Layout := ⟨.up, fun _ => true, false, false⟩

/-- Literal text: recognizable as a double, with an exponent outside
    `10 ^ -4 ≤ |x| < 10 ^ 16`. -/
def literal : Layout := ⟨.up, fun k => decide (-4 ≤ k ∧ k < 16), true, false⟩

end Polystore.Number
