import Polystore.Json.Reader
import Polystore.Json.Printer
import Polystore.DataType
import Polystore.Error
import Polystore.Text.Lines

/-
  Polystore/RowType.lean
  ======================
  **Row types.**  The ordered, named and typed fields of the rows a plan node
  produces.  A field is addressed by its ordinal; names are for people and for
  matching tables of the same shape.
-/

namespace Polystore

structure Field where
  name : String
  type : DataType
  /-- Whether the field may hold `NULL`. -/
  nullable : Bool
deriving DecidableEq

/-- The ordered fields of a row. -/
structure RowType where
  fields : List Field
deriving DecidableEq

/-- A field as in a table definition. -/
def Field.text (f : Field) : String :=
  f.name ++ " " ++ f.type.name ++ (if f.nullable then "" else " NOT NULL")

namespace RowType

def arity (r : RowType) : Nat := r.fields.length

/-- The ordinal is outside the row. -/
def outOfBounds (r : RowType) (i : Nat) : Error :=
  ⟨.schema, "field index " ++ Number.natText i ++ " out of bounds for row of arity " ++
    Number.natText r.arity⟩

def field (r : RowType) (i : Nat) : Except Error Field :=
  require (r.outOfBounds i) r.fields[i]?

/-- The ordinal of the first field with the given name. -/
def indexOf? (r : RowType) (name : String) : Option Nat :=
  r.fields.findIdx? (·.name = name)

def names (r : RowType) : List String := r.fields.map (·.name)

/-- The fields at the given ordinals, in that order. -/
def project (r : RowType) (indices : List Nat) : Except Error RowType := do
  return ⟨← indices.mapM r.field⟩

/-- The same types and nullability, field by field; names do not count. -/
def sameShape (r s : RowType) : Bool :=
  r.fields.map (fun f => (f.type, f.nullable)) = s.fields.map (fun f => (f.type, f.nullable))

/-- The fields in parentheses. -/
def text (r : RowType) : String := "(" ++ Text.commaList (r.fields.map Field.text) ++ ")"

end RowType

/-! ### Serialized form -/

def Field.toJson (f : Field) : Json :=
  .object
    [("name", .string f.name), ("data_type", .string f.type.tag), ("nullable", .bool f.nullable)]

def RowType.toJson (r : RowType) : Json :=
  .object [("fields", .array (r.fields.map Field.toJson))]

/-- Read a serialized field; every part has to be present. -/
def Field.ofRaw? (raw : Json.Raw) : Option Field := do
  match ← raw.fields? ["name", "data_type", "nullable"] with
  | [some name, some type, some nullable] =>
    some ⟨← name.text?, ← DataType.ofTag? (← type.text?), ← nullable.bool?⟩
  | _ => none

def RowType.ofRaw? (raw : Json.Raw) : Option RowType := do
  match ← raw.fields? ["fields"] with
  | [some fields] => some ⟨← fields.list? Field.ofRaw?⟩
  | _ => none

end Polystore
