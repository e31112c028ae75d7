import Polystore.Json.Basic

/-
  Polystore/Json/Printer.lean
  ===========================
  **JSON texts.**  `compact` writes a value without blanks, `pretty` with one
  member or item a line and two blanks of indentation a level.  Members are
  written in the order in which the value lists them.
-/

namespace Polystore.Json

/-- Doubles in JSON: always recognizable as doubles, with a signed exponent
    outside `10 ^ -5 ≤ |x| < 10 ^ 16`. -/
def numberLayout : Number.Layout := ⟨.even, fun k => decide (-5 ≤ k ∧ k < 16), true, true⟩

/-- The text of a double.  JSON has no word for the non-finite values. -/
def floatText (x : Float) : String :=
  match Number.parts x with
  | .finite .. => numberLayout.render x
  | _ => "null"

/-- A hexadecimal digit. -/
def hexDigit (n : Nat) : Char := Nat.digitChar n

/-- A character inside a JSON string: quotes, backslashes and control characters
    are escaped, all else stands for itself. -/
def escape (c : Char) : List Char :=
  if c = '"' then ['\\', '"']
  else if c = '\\' then ['\\', '\\']
  else if c = '\n' then ['\\', 'n']
  else if c = '\r' then ['\\', 'r']
  else if c = '\t' then ['\\', 't']
  else if c.toNat = 8 then ['\\', 'b']
  else if c.toNat = 12 then ['\\', 'f']
  else if c.toNat < 32 then
    ['\\', 'u', '0', '0', hexDigit (c.toNat / 16), hexDigit (c.toNat % 16)]
  else [c]

/-- A string in quotes. -/
def stringText (s : String) : String :=
  String.ofList ('"' :: s.toList.flatMap escape ++ ['"'])

/-- The text without blanks. -/
def compact : Json → String
  | .null => "null"
  | .bool b => if b then "true" else "false"
  | .int i => Number.intText i
  | .float x => floatText x
  | .string s => stringText s
  | .array items => "[" ++ String.intercalate "," (itemTexts items) ++ "]"
  | .object members => "\x7b" ++ String.intercalate "," (memberTexts members) ++ "\x7d"
where
  itemTexts : List Json → List String
    | [] => []
    | item :: rest => compact item :: itemTexts rest
  memberTexts : List (String × Json) → List String
    | [] => []
    | (name, value) :: rest => (stringText name ++ ":" ++ compact value) :: memberTexts rest

/-- Lines between two brackets, one an item; nothing at all between the brackets
    of an empty list. -/
def block (opening closing margin : String) (items : List String) : String :=
  if items.isEmpty then opening ++ closing
  else opening ++ "\n" ++ String.intercalate ",\n" (items.map (margin ++ "  " ++ ·)) ++
    "\n" ++ margin ++ closing

/-- The indented text; `margin` stands before every line but the first. -/
def prettyWith (margin : String) : Json → String
  | .null => "null"
  | .bool b => if b then "true" else "false"
  | .int i => Number.intText i
  | .float x => floatText x
  | .string s => stringText s
  | .array items => block "[" "]" margin (itemTexts (margin ++ "  ") items)
  | .object members => block "\x7b" "\x7d" margin (memberTexts (margin ++ "  ") members)
where
  itemTexts (margin : String) : List Json → List String
    | [] => []
    | item :: rest => prettyWith margin item :: itemTexts margin rest
  memberTexts (margin : String) : List (String × Json) → List String
    | [] => []
    | (name, value) :: rest =>
      (stringText name ++ ": " ++ prettyWith margin value) :: memberTexts margin rest

/-- The indented text. -/
def pretty (j : Json) : String := prettyWith "" j

end Polystore.Json
