import Polystore.Backend
import Polystore.RowType

/-
  Polystore/Catalog/Entry.lean
  ============================
  **Catalog entries.**  Stores, tables, columns, partition groups, and where each
  column's data is placed.  Entries refer to each other by identifiers, which are
  numbers drawn from one counter for all kinds.
-/

namespace Polystore

/-- Identifies a table. -/
structure TableId where
  n : Nat
deriving DecidableEq

/-- Identifies a column. -/
structure ColumnId where
  n : Nat
deriving DecidableEq

/-- Identifies a store: one deployed instance of a backend. -/
structure StoreId where
  n : Nat
deriving DecidableEq

/-- Identifies a partition group. -/
structure PartitionId where
  n : Nat
deriving DecidableEq

def TableId.text (id : TableId) : String := "t" ++ Number.natText id.n

def ColumnId.text (id : ColumnId) : String := "c" ++ Number.natText id.n

def StoreId.text (id : StoreId) : String := "s" ++ Number.natText id.n

def PartitionId.text (id : PartitionId) : String := "pg" ++ Number.natText id.n

/-- A deployed instance of a backend. -/
structure Store where
  id : StoreId
  /-- Unique among the stores; it also names the store's convention. -/
  name : String
  backend : Backend
deriving DecidableEq

/-- A column of a table. -/
structure Column where
  id : ColumnId
  table : TableId
  name : String
  type : DataType
  nullable : Bool
  /-- The ordinal in the table's row type. -/
  position : Nat
deriving DecidableEq

/-- The column as a field of the table's rows. -/
def Column.field (c : Column) : Field := ⟨c.name, c.type, c.nullable⟩

/-- How rows are assigned to partition groups. -/
inductive PartitionKind where
  /-- By a hash of the partition column. -/
  | hash
  /-- By membership of the column's value in a list of qualifiers. -/
  | list
  /-- By numeric ranges with both ends included. -/
  | range
deriving DecidableEq

def PartitionKind.name : PartitionKind → String
  | hash => "HASH"
  | list => "LIST"
  | range => "RANGE"

/-- The name in serialized entries. -/
def PartitionKind.tag : PartitionKind → String
  | hash => "Hash"
  | list => "List"
  | range => "Range"

def PartitionKind.all : List PartitionKind := [hash, list, range]

/-- A partition function and the column it reads. -/
structure Partitioning where
  kind : PartitionKind
  column : ColumnId
deriving DecidableEq

structure Table where
  id : TableId
  space : String
  name : String
  /-- The columns by position. -/
  columns : List ColumnId
  /-- The columns that choose the storage partition on a keyed backend. -/
  partitionKey : List ColumnId
  /-- The rest of the primary key, which orders rows within a storage
      partition. -/
  clusteringKey : List ColumnId
  /-- The estimated number of rows, if there are statistics. -/
  rows : Option Float
  /-- The partition groups in routing order; an unpartitioned table has one. -/
  groups : List PartitionId
  partitioning : Option Partitioning
deriving BEq

namespace Table

def qualifiedName (t : Table) : String := t.space ++ "." ++ t.name

/-- The partition key followed by the clustering key. -/
def primaryKey (t : Table) : List ColumnId := t.partitionKey ++ t.clusteringKey

def isPartitioned (t : Table) : Bool := t.partitioning.isSome

end Table

/-- A named part of a table's rows. -/
structure PartitionGroup where
  id : PartitionId
  table : TableId
  name : String
  /-- List members or range bounds; none for a hash group. -/
  qualifiers : List String
  /-- Whether the group takes the values that no other group accepts. -/
  unbound : Bool
deriving DecidableEq

/-- A store holds a partition group's data of a column. -/
structure Placement where
  group : PartitionId
  store : StoreId
  column : ColumnId
deriving DecidableEq

/-- Where and under which names a store keeps a column. -/
structure Location where
  store : StoreId
  column : ColumnId
  schema : Option String
  table : Option String
  name : Option String
deriving DecidableEq

/-! ### Serialized form of a table -/

def Partitioning.toJson (p : Partitioning) : Json :=
  .object [("kind", .string p.kind.tag), ("column", .nat p.column.n)]

/-- An absent value is `null`. -/
def optionJson {α : Type} (f : α → Json) : Option α → Json
  | none => .null
  | some a => f a

/-- The members in the order of the fields. -/
def Table.toJson (t : Table) : Json :=
  let ids (l : List ColumnId) : Json := .array (l.map fun c => .nat c.n)
  .object
    [("id", .nat t.id.n), ("namespace", .string t.space), ("name", .string t.name),
     ("columns", ids t.columns), ("partition_key", ids t.partitionKey),
     ("clustering_key", ids t.clusteringKey), ("row_count", optionJson .float t.rows),
     ("partition_groups", .array (t.groups.map fun g => .nat g.n)),
     ("partitioning", optionJson Partitioning.toJson t.partitioning)]

def Partitioning.ofRaw? (raw : Json.Raw) : Option Partitioning := do
  match ← raw.fields? ["kind", "column"] with
  | [some kind, some column] =>
    let tag ← kind.text?
    some ⟨← PartitionKind.all.find? (·.tag = tag), ⟨← column.nat64?⟩⟩
  | _ => none

/-- Read a part that may be absent or `null`. -/
def optional? {α : Type} (read? : Json.Raw → Option α) : Option Json.Raw → Option (Option α)
  | none | some .null => some none
  | some raw => (read? raw).map some

def Table.ofRaw? (raw : Json.Raw) : Option Table := do
  let ids (raw : Json.Raw) : Option (List ColumnId) := raw.list? fun r => r.nat64?.map .mk
  match ← raw.fields? ["id", "namespace", "name", "columns", "partition_key",
      "clustering_key", "row_count", "partition_groups", "partitioning"] with
  | [some id, some space, some name, some columns, some partitionKey, some clusteringKey,
      rows, some groups, partitioning] =>
    some
      { id := ⟨← id.nat64?⟩
        space := ← space.text?
        name := ← name.text?
        columns := ← ids columns
        partitionKey := ← ids partitionKey
        clusteringKey := ← ids clusteringKey
        rows := ← optional? Json.Raw.float? rows
        groups := ← groups.list? fun r => r.nat64?.map .mk
        partitioning := ← optional? Partitioning.ofRaw? partitioning }
  | _ => none

end Polystore
