import Polystore.Json.Basic
import Polystore.Number.Reading

/-
  Polystore/Json/Reader.lean
  ==========================
  **Reading JSON.**  A text is read in two steps.  `Raw.read?` checks the
  grammar and gives a tree that keeps numbers as numerals and members in the
  order written, repeated names included; a reader of records decides from that
  tree what it needs and what it ignores.  `Raw.value?` gives every part of the
  tree its value.  Grammar and value are apart because a member that nobody
  reads has to be well formed, but its number may be out of range.
-/

namespace Polystore.Json

/-! ### Numerals -/

/-- A number as written. -/
structure Numeral where
  negative : Bool
  whole : List Char
  /-- The digits after the point, absent without one. -/
  fraction : Option (List Char)
  /-- The sign and the digits of the exponent. -/
  exponent : Option (Bool × List Char)

/-- Take digits into a 64-bit significand for as long as it does not overflow;
    the digits that no longer fit are returned. -/
def absorb (significand : Nat) : List Char → Nat × List Char
  | [] => (significand, [])
  | c :: rest =>
    let next := 10 * significand + Number.digitsValue [c]
    if next < Nat.pow 2 64 then absorb next rest else (significand, c :: rest)

/-- The double nearest to `10 ^ k`. -/
def powerOfTen (k : Nat) : Float := Float.ofScientific 1 false k

/-- `x · 10 ^ exponent` by one multiplication or division; a large negative
    exponent is taken in steps of 308.  There is no value above the finite
    range. -/
def scale? (x : Float) (exponent : Int) : Option Float :=
  if exponent < -308 then
    if x == 0.0 then some x else scale? (x / powerOfTen 308) (exponent + 308)
  else if exponent < 0 then some (x / powerOfTen (-exponent).toNat)
  else if 308 < exponent then
    if x == 0.0 then some x else none
  else
    let y := x * powerOfTen exponent.toNat
    if y.isInf then none else some y
termination_by (-exponent).toNat

/-- Negate on demand. -/
def withSign (negative : Bool) (x : Float) : Float := if negative then -x else x

/-- The value of a numeral.  Without point and exponent it is an integer as far
    as 64 bits go; `-0` and everything else is a double.  The digits are taken
    into a 64-bit significand, and the power of ten is applied once, so a long
    numeral need not give the nearest double. -/
def Numeral.value? (n : Numeral) : Option Json :=
  let (significand, restWhole) := absorb 0 n.whole
  let (significand, restFraction) := absorb significand (n.fraction.getD [])
  let taken := (n.fraction.getD []).length - restFraction.length
  let shift : Int := restWhole.length - taken
  let magnitude := Float.ofNat significand
  match n.exponent with
  | none =>
    if n.fraction.isNone && restWhole.isEmpty then
      if !n.negative then some (.int significand)
      else if significand = 0 ∨ Nat.pow 2 63 < significand then some (.float (-magnitude))
      else some (.int (-significand))
    else (scale? magnitude shift).map fun x => .float (withSign n.negative x)
  | some (negative, digits) =>
    let exponent := Number.digitsValue digits
    if exponent < Nat.pow 2 31 then
      (scale? magnitude (shift + Number.signed negative exponent)).map fun x =>
        .float (withSign n.negative x)
    else if significand ≠ 0 && !negative then none
    else some (.float (withSign n.negative 0.0))

/-! ### The grammar -/

/-- A text's tree.  A string is absent when an escape in it names half of a
    surrogate pair: it is well formed but has no value. -/
inductive Raw where
  | null
  | bool (b : Bool)
  | number (n : Numeral)
  | string (s : Option String)
  | array (items : List Raw)
  | object (members : List (Option String × Raw))
deriving Inhabited

namespace Raw

/-- JSON's own blanks. -/
def isSpace (c : Char) : Bool := c = ' ' || c = '\n' || c = '\t' || c = '\r'

/-- Skip blanks. -/
def skip (cs : List Char) : List Char := cs.dropWhile isSpace

/-- The value of a hexadecimal digit. -/
def hexValue? (c : Char) : Option Nat :=
  if c.isDigit then some (c.toNat - 48)
  else if 'a' ≤ c ∧ c ≤ 'f' then some (c.toNat - 87)
  else if 'A' ≤ c ∧ c ≤ 'F' then some (c.toNat - 55)
  else none

/-- Four hexadecimal digits. -/
def hex4? : List Char → Option (Nat × List Char)
  | a :: b :: c :: d :: rest => do
    let value := 4096 * (← hexValue? a) + 256 * (← hexValue? b) + 16 * (← hexValue? c) +
      (← hexValue? d)
    some (value, rest)
  | _ => none

/-- What the escapes of one letter stand for. -/
def simpleEscape? (c : Char) : Option Char :=
  if c = '"' ∨ c = '\\' ∨ c = '/' then some c
  else if c = 'b' then some (Char.ofNat 8)
  else if c = 'f' then some (Char.ofNat 12)
  else if c = 'n' then some '\n'
  else if c = 'r' then some '\r'
  else if c = 't' then some '\t'
  else none

/-- A numbered escape, after `\u`: the character it stands for, or nothing for
    half of a surrogate pair. -/
def numberedEscape? (cs : List Char) : Option (Option Char × List Char) := do
  let (high, rest) ← hex4? cs
  if 0xD800 ≤ high ∧ high < 0xDC00 then
    match rest with
    | '\\' :: 'u' :: more =>
      match hex4? more with
      | none => some (none, rest)
      | some (low, more) =>
        if 0xDC00 ≤ low ∧ low < 0xE000 then
          some (some (Char.ofNat (0x10000 + (high - 0xD800) * 1024 + (low - 0xDC00))), more)
        else some (none, rest)
    | _ => some (none, rest)
  else if 0xDC00 ≤ high ∧ high < 0xE000 then some (none, rest)
  else some (some (Char.ofNat high), rest)

/-- The rest of a string after its opening quote.  `seen` holds the characters
    read so far in reverse, or nothing once a character had no value. -/
def stringFrom? : Nat → Option (List Char) → List Char → Option (Option String × List Char)
  | 0, _, _ => none
  | fuel + 1, seen, cs =>
    match cs with
    | [] => none
    | '"' :: rest => some (seen.map fun s => String.ofList s.reverse, rest)
    | '\\' :: 'u' :: rest => do
      let (c?, rest) ← numberedEscape? rest
      stringFrom? fuel (do some ((← c?) :: (← seen))) rest
    | '\\' :: c :: rest => do
      let c ← simpleEscape? c
      stringFrom? fuel (seen.map (c :: ·)) rest
    | c :: rest =>
      if c.toNat < 32 ∨ c = '\\' then none else stringFrom? fuel (seen.map (c :: ·)) rest

/-- A string after its opening quote. -/
def string? (cs : List Char) : Option (Option String × List Char) :=
  stringFrom? (cs.length + 1) (some []) cs

/-- The exponent of a numeral, if there is one. -/
def exponent? : List Char → Option (Option (Bool × List Char) × List Char)
  | c :: rest =>
    if c = 'e' ∨ c = 'E' then
      let (negative, rest) := Number.splitSign rest
      let (digits, rest) := rest.span Char.isDigit
      if digits.isEmpty then none else some (some (negative, digits), rest)
    else some (none, c :: rest)
  | [] => some (none, [])

/-- The fraction of a numeral, if there is one. -/
def fraction? : List Char → Option (Option (List Char) × List Char)
  | '.' :: rest =>
    let (digits, rest) := rest.span Char.isDigit
    if digits.isEmpty then none else some (some digits, rest)
  | rest => some (none, rest)

/-- A numeral: no superfluous leading zero, and digits on both sides of a
    point. -/
def numeral? (cs : List Char) : Option (Numeral × List Char) := do
  let (negative, rest) :=
    match cs with
    | '-' :: rest => (true, rest)
    | rest => (false, rest)
  let (whole, rest) := rest.span Char.isDigit
  if whole.isEmpty || (whole.head? = some '0' && 1 < whole.length) then none
  else
    let (fraction, rest) ← fraction? rest
    let (exponent, rest) ← exponent? rest
    some (⟨negative, whole, fraction, exponent⟩, rest)

/-- The rest of a fixed word. -/
def word? (word : List Char) (value : Raw) (cs : List Char) : Option (Raw × List Char) :=
  if word.isPrefixOf cs then some (value, cs.drop word.length) else none

mutual

/-- One value.  Every step consumes a character, so the length of the text is
    enough fuel. -/
def valueFrom? : Nat → List Char → Option (Raw × List Char)
  | 0, _ => none
  | fuel + 1, cs =>
    match skip cs with
    | 'n' :: rest => word? ['u', 'l', 'l'] .null rest
    | 't' :: rest => word? ['r', 'u', 'e'] (.bool true) rest
    | 'f' :: rest => word? ['a', 'l', 's', 'e'] (.bool false) rest
    | '"' :: rest => (string? rest).map fun (s, rest) => (.string s, rest)
    | '[' :: rest =>
      match skip rest with
      | ']' :: rest => some (.array [], rest)
      | rest => (itemsFrom? fuel rest).map fun (items, rest) => (.array items, rest)
    | '{' :: rest =>
      match skip rest with
      | '}' :: rest => some (.object [], rest)
      | rest => (membersFrom? fuel rest).map fun (members, rest) => (.object members, rest)
    | rest => (numeral? rest).map fun (n, rest) => (.number n, rest)

/-- The items of an array up to its closing bracket. -/
def itemsFrom? : Nat → List Char → Option (List Raw × List Char)
  | 0, _ => none
  | fuel + 1, cs => do
    let (item, rest) ← valueFrom? fuel cs
    match skip rest with
    | ',' :: rest => (itemsFrom? fuel rest).map fun (items, rest) => (item :: items, rest)
    | ']' :: rest => some ([item], rest)
    | _ => none

/-- The members of an object up to its closing bracket. -/
def membersFrom? : Nat → List Char → Option (List (Option String × Raw) × List Char)
  | 0, _ => none
  | fuel + 1, cs =>
    match skip cs with
    | '"' :: rest => do
      let (name, rest) ← string? rest
      match skip rest with
      | ':' :: rest => do
        let (value, rest) ← valueFrom? fuel rest
        match skip rest with
        | ',' :: rest =>
          (membersFrom? fuel rest).map fun (members, rest) => ((name, value) :: members, rest)
        | '}' :: rest => some ([(name, value)], rest)
        | _ => none
      | _ => none
    | _ => none

end

/-- Read a whole text. -/
def read? (text : String) : Option Raw :=
  let cs := text.toList
  match valueFrom? (cs.length + 1) cs with
  | some (raw, rest) => if (skip rest).isEmpty then some raw else none
  | none => none

/-- The value of a tree; the last of several members of one name counts. -/
def value? : Raw → Option Json
  | .null => some .null
  | .bool b => some (.bool b)
  | .number n => n.value?
  | .string s => s.map .string
  | .array items => (items? items).map .array
  | .object members => (members? members).map ofMembers
where
  items? : List Raw → Option (List Json)
    | [] => some []
    | item :: rest => do some ((← value? item) :: (← items? rest))
  members? : List (Option String × Raw) → Option Members
    | [] => some []
    | (name, value) :: rest => do some ((← name, ← value? value) :: (← members? rest))

/-! ### Records -/

/-- The parts of a record with the given fields.  An object gives each field by
    name, at most once, and its other members are ignored; an array gives the
    fields in order, and the last ones may be missing. -/
def fields? (names : List String) : Raw → Option (List (Option Raw))
  | .object members =>
    if members.any (·.1.isNone) then none
    else
      names.mapM fun name =>
        match members.filter (·.1 = some name) with
        | [] => some none
        | [(_, value)] => some (some value)
        | _ => none
  | .array items =>
    if names.length < items.length then none
    else some (items.map some ++ List.replicate (names.length - items.length) none)
  | _ => none

/-- A truth value. -/
def bool? : Raw → Option Bool
  | .bool b => some b
  | _ => none

/-- A natural number of at most 64 bits. -/
def nat64? : Raw → Option Nat
  | .number n =>
    match n.value? with
    | some (.int (.ofNat k)) => some k
    | _ => none
  | _ => none

/-- A double; an integer is taken as the nearest one. -/
def float? : Raw → Option Float
  | .number n =>
    match n.value? with
    | some (.int i) => some (Float.ofInt i)
    | some (.float x) => some x
    | _ => none
  | _ => none

def text? : Raw → Option String
  | .string s => s
  | _ => none

def list? {α : Type} (item? : Raw → Option α) : Raw → Option (List α)
  | .array items => items.mapM item?
  | _ => none

end Raw

/-- Read a whole text as a value. -/
def read? (text : String) : Option Json := (Raw.read? text).bind Raw.value?

end Polystore.Json
