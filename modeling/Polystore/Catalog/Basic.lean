import Polystore.Catalog.Entry
import Polystore.Like

/-
  Polystore/Catalog/Basic.lean
  ============================
  **One state of the catalog.**  A catalog is a value: changing it gives a new
  one with a higher version, and whoever holds an older one keeps reading that.
  Entries are listed in ascending order of their identifiers, placements by
  group, store and column, and locations by store and column.
-/

namespace Polystore

/-- A state of the catalog. -/
structure Catalog where
  version : Nat := 0
  /-- The identifier given out last. -/
  lastId : Nat := 0
  stores : List Store := []
  tables : List Table := []
  columns : List Column := []
  groups : List PartitionGroup := []
  placements : List Placement := []
  locations : List Location := []

namespace Catalog

/-! ### Errors -/

def noTable (id : TableId) : Error := ⟨.catalog, "table " ++ id.text ++ " does not exist"⟩

def noTableNamed (space name : String) : Error :=
  ⟨.catalog, "table '" ++ space ++ "." ++ name ++ "' does not exist"⟩

def noColumn (id : ColumnId) : Error := ⟨.catalog, "column " ++ id.text ++ " does not exist"⟩

def noColumnNamed (name : String) (id : TableId) : Error :=
  ⟨.catalog, "column '" ++ name ++ "' does not exist in table " ++ id.text⟩

def noStore (id : StoreId) : Error := ⟨.catalog, "store " ++ id.text ++ " does not exist"⟩

def noGroup (id : PartitionId) : Error :=
  ⟨.catalog, "partition group " ++ id.text ++ " does not exist"⟩

/-! ### Reading -/

def table (c : Catalog) (id : TableId) : Except Error Table :=
  require (noTable id) (c.tables.find? (·.id = id))

def tableNamed (c : Catalog) (space name : String) : Except Error Table :=
  require (noTableNamed space name) (c.tables.find? fun t => t.space = space && t.name = name)

/-- The tables whose name matches a pattern, in the namespaces that match one. -/
def tablesMatching (c : Catalog) (space : Option String) (name : String) : List Table :=
  c.tables.filter fun t => space.all (likeMatch t.space) && likeMatch t.name name

def column (c : Catalog) (id : ColumnId) : Except Error Column :=
  require (noColumn id) (c.columns.find? (·.id = id))

def store (c : Catalog) (id : StoreId) : Except Error Store :=
  require (noStore id) (c.stores.find? (·.id = id))

def storesOf (c : Catalog) (b : Backend) : List Store := c.stores.filter (·.backend = b)

def group (c : Catalog) (id : PartitionId) : Except Error PartitionGroup :=
  require (noGroup id) (c.groups.find? (·.id = id))

/-- The columns of a table by position. -/
def columnsOf (c : Catalog) (id : TableId) : Except Error (List Column) := do
  (← c.table id).columns.mapM c.column

def columnNamed (c : Catalog) (id : TableId) (name : String) : Except Error Column := do
  require (noColumnNamed name id) ((← c.columnsOf id).find? (·.name = name))

def rowType (c : Catalog) (id : TableId) : Except Error RowType := do
  return ⟨(← c.columnsOf id).map Column.field⟩

/-- The partition groups of a table in routing order. -/
def groupsOf (c : Catalog) (id : TableId) : Except Error (List PartitionGroup) := do
  (← c.table id).groups.mapM c.group

/-- The partition function of a table, if it is partitioned. -/
def partitioning (c : Catalog) (id : TableId) : Except Error (Option Partitioning) := do
  return (← c.table id).partitioning

def placementsOf (c : Catalog) (id : ColumnId) : List Placement :=
  c.placements.filter (·.column = id)

/-- The placements of a table's columns, column by column. -/
def placementsOfTable (c : Catalog) (id : TableId) : Except Error (List Placement) := do
  return (← c.table id).columns.flatMap c.placementsOf

/-- Where a store keeps a column, if it holds it. -/
def location? (c : Catalog) (s : StoreId) (id : ColumnId) : Option Location :=
  c.locations.find? fun l => l.store = s && l.column = id

/-- Whether a store holds a column for every one of the groups. -/
def holdsColumn (c : Catalog) (s : StoreId) (groups : List PartitionId) (id : ColumnId) : Bool :=
  groups.all fun g => (c.placementsOf id).any fun p => p.store = s && p.group = g

/-- Whether a store holds every column of every group of a table. -/
def holdsTable (c : Catalog) (s : StoreId) (id : TableId) : Except Error Bool := do
  let t ← c.table id
  return t.columns.all (c.holdsColumn s t.groups)

/-- The stores with a complete copy of a table.  Without any store there is
    nothing to look the table up for, and the answer is empty. -/
def fullStores (c : Catalog) (id : TableId) : Except Error (List Store) :=
  c.stores.filterM fun s => c.holdsTable s.id id

end Catalog

end Polystore
