/-
  Polystore/DataType.lean
  =======================
  **Types of columns and expressions.**  Eight concrete types and `any`, the
  type of a parameter whose type is not known.  `null` is the type of the literal
  `NULL`; both `null` and `any` fit everywhere.
-/

namespace Polystore

/-- The type of a column or of an expression. -/
inductive DataType where
  | null
  | bool
  | bigint
  | double
  | string
  | binary
  | date
  | timestamp
  | any
deriving DecidableEq, Repr

namespace DataType

def all : List DataType :=
  [null, bool, bigint, double, string, binary, date, timestamp, any]

/-- The name in messages and row types. -/
def name : DataType → String
  | null => "NULL"
  | bool => "BOOLEAN"
  | bigint => "BIGINT"
  | double => "DOUBLE"
  | string => "VARCHAR"
  | binary => "VARBINARY"
  | date => "DATE"
  | timestamp => "TIMESTAMP"
  | any => "ANY"

/-- The name in serialized entries. -/
def tag : DataType → String
  | null => "Null"
  | bool => "Bool"
  | bigint => "Int64"
  | double => "Float64"
  | string => "String"
  | binary => "Binary"
  | date => "Date"
  | timestamp => "Timestamp"
  | any => "Any"

def ofTag? (s : String) : Option DataType := all.find? (·.tag = s)

def isNumeric : DataType → Bool
  | bigint | double => true
  | _ => false

def isString : DataType → Bool
  | string => true
  | _ => false

def isTemporal : DataType → Bool
  | timestamp | date => true
  | _ => false

/-- Whether the values have an order that bounds can use. -/
def isOrderable : DataType → Bool
  | bigint | double | string | date | timestamp => true
  | _ => false

/-- `null` and `any` stand for a type that is not known. -/
def isUnknown : DataType → Bool
  | null | any => true
  | _ => false

/-- Whether a value of type `t` can be used where `target` is expected. -/
def coercesTo (t target : DataType) : Bool :=
  t = target || t.isUnknown || target = any || (t = bigint && target = double)

/-- The type both operands of a binary operator can be brought to.  An unknown
    type gives way to the other one, the left first. -/
def supertype? (l r : DataType) : Option DataType :=
  if l = r then some l
  else if l.isUnknown then some r
  else if r.isUnknown then some l
  else if l.isNumeric && r.isNumeric then some double
  else none

theorem ofTag?_tag (t : DataType) : ofTag? t.tag = some t := by cases t <;> rfl

theorem supertype?_self (t : DataType) : supertype? t t = some t := by simp [supertype?]

end DataType

end Polystore
