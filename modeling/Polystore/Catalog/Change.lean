import Polystore.Catalog.Basic

/-
  Polystore/Catalog/Change.lean
  =============================
  **Changing the catalog.**  A change is checked and applied to a copy of the
  current state.  If it succeeds the copy becomes current, one version higher; if
  it fails nothing is published.  Several changes in a row form a `Session`,
  which keeps what the earlier ones published even when a later one fails.
-/

namespace Polystore

/-- Changes one after the other.  The state survives an error. -/
abbrev Session := ExceptT Error (StateM Catalog)

/-- A column in a table definition. -/
structure ColumnDef where
  name : String
  type : DataType
  nullable : Bool

/-- A table to create. -/
structure TableDef where
  space : String
  name : String
  columns : List ColumnDef
  partitionKey : List String
  clusteringKey : List String
  rows : Option Float

namespace Catalog

/-! ### Errors -/

def storeExists (name : String) : Error := ⟨.catalog, "store '" ++ name ++ "' already exists"⟩

def tableExists (d : TableDef) : Error :=
  ⟨.catalog, "table '" ++ d.space ++ "." ++ d.name ++ "' already exists"⟩

def noColumns (d : TableDef) : Error :=
  ⟨.catalog, "table '" ++ d.space ++ "." ++ d.name ++ "' must have at least one column"⟩

def duplicateColumn (name : String) (d : TableDef) : Error :=
  ⟨.catalog, "duplicate column '" ++ name ++ "' in table '" ++ d.space ++ "." ++ d.name ++ "'"⟩

def noKeyColumn (name : String) (id : TableId) : Error :=
  ⟨.catalog, "key column '" ++ name ++ "' does not exist in table " ++ id.text⟩

def noGroups (id : TableId) : Error :=
  ⟨.catalog, "table " ++ id.text ++ " needs at least one partition group"⟩

def foreignColumn (c : ColumnId) (id : TableId) : Error :=
  ⟨.catalog, "partition column " ++ c.text ++ " does not belong to table " ++ id.text⟩

def foreignGroup (g : PartitionId) (id : TableId) : Error :=
  ⟨.catalog, "partition group " ++ g.text ++ " does not belong to table " ++ id.text⟩

def notPlaced (s : StoreId) (c : ColumnId) : Error :=
  ⟨.catalog, "store " ++ s.text ++ " holds no placement of column " ++ c.text⟩

def badRowCount (rows : Float) : Error :=
  ⟨.value, "row count must be a non-negative number, got " ++ Number.plain.render rows⟩

/-! ### Publishing -/

/-- Apply a change to the current state and publish the result if it succeeds. -/
def publish {α : Type} (change : Catalog → Except Error (α × Catalog)) : Session α := do
  let current ← get
  let (a, next) ← (change current : Except Error (α × Catalog))
  set { next with version := current.version + 1 }
  return a

/-! ### Changes of a state -/

/-- Register a store under a new name. -/
def withStore (name : String) (b : Backend) (c : Catalog) : Except Error (StoreId × Catalog) := do
  ensure (c.stores.all (·.name ≠ name)) (storeExists name)
  let id : StoreId := ⟨c.lastId + 1⟩
  return (id, { c with lastId := id.n, stores := c.stores ++ [⟨id, name, b⟩] })

/-- The first name that occurred before. -/
def repeatedName? (seen : List String) : List ColumnDef → Option String
  | [] => none
  | d :: rest => if seen.contains d.name then some d.name else repeatedName? (d.name :: seen) rest

/-- A new group of a table. -/
def withGroup (table : TableId) (name : String) (qualifiers : List String) (unbound : Bool)
    (c : Catalog) : PartitionId × Catalog :=
  let id : PartitionId := ⟨c.lastId + 1⟩
  (id, { c with lastId := id.n, groups := c.groups ++ [⟨id, table, name, qualifiers, unbound⟩] })

def resolveKey (id : TableId) (columns : List Column) (names : List String) :
    Except Error (List ColumnId) :=
  names.mapM fun name => do
    return (← require (noKeyColumn name id) (columns.find? (·.name = name))).id

/-- Create a table, not partitioned and with a single group.  The table, its
    columns and the group get consecutive identifiers. -/
def withTable (d : TableDef) (c : Catalog) : Except Error (TableId × Catalog) := do
  ensure (c.tables.all fun t => t.space ≠ d.space || t.name ≠ d.name) (tableExists d)
  ensure (!d.columns.isEmpty) (noColumns d)
  if let some name := repeatedName? [] d.columns then
    throw (duplicateColumn name d)
  let id : TableId := ⟨c.lastId + 1⟩
  let columns := d.columns.mapIdx fun i col =>
    ({ id := ⟨id.n + 1 + i⟩, table := id, name := col.name, type := col.type,
       nullable := col.nullable, position := i } : Column)
  let partitionKey ← resolveKey id columns d.partitionKey
  let clusteringKey ← resolveKey id columns d.clusteringKey
  let (group, next) := withGroup id "default" [] false
    { c with lastId := id.n + columns.length, columns := c.columns ++ columns }
  let table : Table :=
    { id, space := d.space, name := d.name, columns := columns.map (·.id), partitionKey,
      clusteringKey, rows := d.rows, groups := [group], partitioning := none }
  return (id, { next with tables := next.tables ++ [table] })

/-- Change the entry of a table. -/
def mapTable (id : TableId) (f : Table → Table) (c : Catalog) : Catalog :=
  { c with tables := c.tables.map fun t => if t.id = id then f t else t }

/-- Install a partition function and its groups.  Groups of the table that are not
    listed are dropped, and their placements with them. -/
def withPartitioning (id : TableId) (p : Partitioning) (groups : List PartitionId)
    (c : Catalog) : Except Error Catalog := do
  ensure (!groups.isEmpty) (noGroups id)
  ensure ((← c.column p.column).table = id) (foreignColumn p.column id)
  for g in groups do
    ensure ((← c.group g).table = id) (foreignGroup g id)
  let live := c.groups.filter fun g => g.table ≠ id || groups.contains g.id
  discard <| c.table id
  return mapTable id (fun t => { t with partitioning := some p, groups })
    { c with
      groups := live
      placements := c.placements.filter fun q => live.any (·.id = q.group) }

/-- The order of placements: by group, store and column. -/
def placementBefore (p q : Placement) : Bool :=
  p.group.n < q.group.n || (p.group = q.group &&
    (p.store.n < q.store.n || (p.store = q.store && p.column.n < q.column.n)))

/-- Add a placement in order, once. -/
def insertPlacement (p : Placement) : List Placement → List Placement
  | [] => [p]
  | q :: rest =>
    if p = q then q :: rest
    else if placementBefore p q then p :: q :: rest
    else q :: insertPlacement p rest

/-- The order of locations: by store and column. -/
def locationBefore (l m : Location) : Bool :=
  l.store.n < m.store.n || (l.store = m.store && l.column.n < m.column.n)

/-- Add a location in order, unless the store has one for the column. -/
def insertLocation (l : Location) : List Location → List Location
  | [] => [l]
  | m :: rest =>
    if l.store = m.store ∧ l.column = m.column then m :: rest
    else if locationBefore l m then l :: m :: rest
    else m :: insertLocation l rest

/-- Record that a store holds a column for a group. -/
def withPlacement (s : StoreId) (col : ColumnId) (g : PartitionId) (c : Catalog) :
    Except Error Catalog := do
  discard <| c.store s
  let id := (← c.column col).table
  ensure ((← c.group g).table = id) (foreignGroup g id)
  return { c with
    placements := insertPlacement ⟨g, s, col⟩ c.placements
    locations := insertLocation ⟨s, col, none, none, none⟩ c.locations }

/-- Set the names under which a store keeps a column that it holds. -/
def withNames (s : StoreId) (col : ColumnId) (schema table name : String) (c : Catalog) :
    Except Error Catalog := do
  discard <| require (notPlaced s col) (c.location? s col)
  return { c with
    locations := c.locations.map fun l =>
      if l.store = s ∧ l.column = col then ⟨s, col, some schema, some table, some name⟩ else l }

/-- Without the placements of some columns on a store. -/
def withoutColumns (s : StoreId) (columns : List ColumnId) (c : Catalog) : Catalog :=
  { c with
    placements := c.placements.filter fun p => !(p.store = s && columns.contains p.column)
    locations := c.locations.filter fun l => !(l.store = s && columns.contains l.column) }

/-! ### Published changes -/

def addStore (name : String) (b : Backend) : Session StoreId :=
  publish (withStore name b)

def createTable (d : TableDef) : Session TableId :=
  publish (withTable d)

/-- Create a partition group.  It takes part in routing once a partition function
    lists it. -/
def addGroup (table : TableId) (name : String) (qualifiers : List String) (unbound : Bool) :
    Session PartitionId :=
  publish fun c => do
    discard <| c.table table
    return withGroup table name qualifiers unbound c

/-- See `withPartitioning`. -/
def install (table : TableId) (p : Partitioning) (groups : List PartitionId) : Session Unit :=
  publish fun c => do return ((), ← withPartitioning table p groups c)

def addPlacement (s : StoreId) (col : ColumnId) (g : PartitionId) : Session Unit :=
  publish fun c => do return ((), ← withPlacement s col g c)

def setNames (s : StoreId) (col : ColumnId) (schema table name : String) : Session Unit :=
  publish fun c => do return ((), ← withNames s col schema table name c)

/-- Remove every placement of a column on a store. -/
def deleteColumn (s : StoreId) (col : ColumnId) : Session Unit :=
  publish fun c => .ok ((), withoutColumns s [col] c)

/-- Remove every placement of a table on a store. -/
def deleteData (s : StoreId) (table : TableId) : Session Unit :=
  publish fun c => do return ((), withoutColumns s (← c.table table).columns c)

/-- Set the estimated number of rows. -/
def setRows (table : TableId) (rows : Float) : Session Unit :=
  publish fun c => do
    ensure (rows.isFinite && !(rows < 0.0)) (badRowCount rows)
    discard <| c.table table
    return ((), mapTable table (fun t => { t with rows := some rows }) c)

/-- Place every column of a table on a store for every group, columns outermost;
    the first error ends it. -/
def placeTable (s : StoreId) (table : TableId) : Session Unit := do
  let t ← ((← get).table table : Except Error Table)
  for col in t.columns do
    for g in t.groups do
      addPlacement s col g

end Catalog

end Polystore
