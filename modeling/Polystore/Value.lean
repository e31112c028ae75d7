import Polystore.DataType
import Polystore.Error
import Polystore.Number.Layout
import Polystore.Number.Reading
import Polystore.Text.Blank
import Polystore.Text.Lines

/-
  Polystore/Value.lean
  ====================
  **Runtime values.**  Integers are 64-bit words, dates count days and
  timestamps milliseconds since the epoch.  A value has two texts: the literal
  form used in expressions, and the canonical form, which does not depend on how
  the value is typed and is what partition functions hash and match.  `parse`
  reads the canonical form back.
-/

namespace Polystore

/-- A runtime value. -/
inductive Value where
  | null
  | bool (b : Bool)
  | bigint (i : Int64)
  | double (x : Float)
  | string (s : String)
  | binary (bytes : List UInt8)
  | date (days : Int32)
  | timestamp (millis : Int64)
deriving BEq

namespace Value

def isNull : Value → Bool
  | null => true
  | _ => false

def asBool? : Value → Option Bool
  | bool b => some b
  | _ => none

def asBigint? : Value → Option Int64
  | bigint i => some i
  | _ => none

/-- The value as a double; an integer gives the nearest one. -/
def asDouble? : Value → Option Float
  | double x => some x
  | bigint i => some (Float.ofInt i.toInt)
  | _ => none

def asString? : Value → Option String
  | string s => some s
  | _ => none

/-- The type a literal of this value has. -/
def dataType : Value → DataType
  | null => .null
  | bool _ => .bool
  | bigint _ => .bigint
  | double _ => .double
  | string _ => .string
  | binary _ => .binary
  | date _ => .date
  | timestamp _ => .timestamp

/-- The name of the value's type in messages. -/
def typeName (v : Value) : String := v.dataType.tag

/-! ### Order -/

/-- Compare doubles; NaN is incomparable. -/
def compareDouble (a b : Float) : Option Ordering :=
  if a < b then some .lt
  else if a == b then some .eq
  else if b < a then some .gt
  else none

/-- Compare byte strings like words. -/
def compareBytes : List UInt8 → List UInt8 → Ordering
  | [], [] => .eq
  | [], _ :: _ => .lt
  | _ :: _, [] => .gt
  | a :: as, b :: bs => (compare a.toNat b.toNat).then (compareBytes as bs)

/-- Compare two values of compatible types.  Integers are compared exactly with
    integers and as doubles with doubles; `NULL`, NaN and values of different
    types are incomparable. -/
def compare? : Value → Value → Option Ordering
  | bigint a, bigint b => some (compare a.toInt b.toInt)
  | bigint a, double b => compareDouble (Float.ofInt a.toInt) b
  | double a, bigint b => compareDouble a (Float.ofInt b.toInt)
  | double a, double b => compareDouble a b
  | string a, string b => some (compare a b)
  | bool a, bool b => some (compare a.toNat b.toNat)
  | date a, date b => some (compare a.toInt b.toInt)
  | timestamp a, timestamp b => some (compare a.toInt b.toInt)
  | binary a, binary b => some (compareBytes a b)
  | _, _ => none

/-! ### Texts -/

/-- Two lower-case hexadecimal digits a byte. -/
def hexText (bytes : List UInt8) : String :=
  String.ofList (bytes.flatMap fun b => [Nat.digitChar (b.toNat / 16), Nat.digitChar (b.toNat % 16)])

/-- The canonical form: strings verbatim, numbers in shortest plain form, dates
    and timestamps as integers, bytes in hexadecimal, `NULL` as the empty
    text. -/
def canonical : Value → String
  | null => ""
  | bool b => if b then "true" else "false"
  | bigint i => Number.intText i.toInt
  | double x => Number.plain.render x
  | string s => s
  | binary bytes => hexText bytes
  | date d => Number.intText d.toInt
  | timestamp t => Number.intText t.toInt

/-- The literal form. -/
def text : Value → String
  | null => "NULL"
  | bool b => if b then "TRUE" else "FALSE"
  | bigint i => Number.intText i.toInt
  | double x => Number.literal.render x
  | string s => Text.doubled '\'' s
  | binary bytes => "X'" ++ hexText bytes ++ "'"
  | date d => "DATE(" ++ Number.intText d.toInt ++ ")"
  | timestamp t => "TIMESTAMP(" ++ Number.intText t.toInt ++ ")"

/-! ### Reading -/

/-- The text does not denote a value of the type. -/
def notAValue (s : String) (t : DataType) : Error :=
  ⟨.value, "'" ++ s ++ "' is not a valid " ++ t.name ++ " value"⟩

/-- Values of the type have no textual form. -/
def noTextForm (t : DataType) : Error :=
  ⟨.type, "cannot parse a " ++ t.name ++ " value from text"⟩

/-- A truth value, in any case. -/
def readBool? (cs : List Char) : Option Bool :=
  let word := cs.map Char.toLower
  if word = ['t', 'r', 'u', 'e'] then some true
  else if word = ['f', 'a', 'l', 's', 'e'] then some false
  else none

/-- Read the canonical form of a value of type `t`.  White space around anything
    but a string is ignored, and numbers may be spelled in other ways too. -/
def parse (s : String) (t : DataType) : Except Error Value :=
  let cs := Text.trim s.toList
  match t with
  | .bigint =>
    require (notAValue s t) (((Number.readInt? cs).bind Number.int64?).map bigint)
  | .double => require (notAValue s t) ((Number.readFloat? cs).map double)
  | .bool => require (notAValue s t) ((readBool? cs).map bool)
  | .date => require (notAValue s t) (((Number.readInt? cs).bind Number.int32?).map date)
  | .timestamp =>
    require (notAValue s t) (((Number.readInt? cs).bind Number.int64?).map timestamp)
  | .string | .any => .ok (string s)
  | .null | .binary => .error (noTextForm t)

end Value

end Polystore
