import Polystore.Catalog.Change
import Polystore.Partition.Function

/-
  Polystore/Partition/Router.lean
  ===============================
  **Routing and guarded changes.**  The router sends values to partition groups,
  chooses placements to read from, and guards the changes that could leave a
  group without any placement: partitioning a table checks the request before
  anything is created, and a placement is dropped only when every group keeps
  another one.
-/

namespace Polystore

namespace Router

/-! ### Errors -/

def unpartitioned (id : TableId) (groups : Nat) : Error :=
  ⟨.partition, "unpartitioned table " ++ id.text ++ " has " ++ Number.natText groups ++
    " partition groups"⟩

def foreignPartition (g : PartitionId) (t : Table) : Error :=
  ⟨.partition, "partition group " ++ g.text ++ " does not belong to " ++ t.qualifiedName⟩

def nowherePlaced (column : String) (t : Table) (g : PartitionId) : Error :=
  ⟨.placement, "no store holds column " ++ column ++ " of " ++ t.qualifiedName ++
    " for partition group " ++ g.text⟩

def lastColumnPlacement (column : String) (s : StoreId) (id : TableId) : Error :=
  ⟨.placement, "dropping column " ++ column ++ " from store " ++ s.text ++
    " would leave a partition group of table " ++ id.text ++ " without a placement"⟩

def lastPlacement (s : StoreId) (col : ColumnId) (id : TableId) : Error :=
  ⟨.placement, "store " ++ s.text ++ " holds the last placement of column " ++ col.text ++
    " for a partition group of table " ++ id.text⟩

/-! ### Routing -/

/-- The group of the rows of a table whose partition column holds `v`.  A table
    that is not partitioned has one group. -/
def target (c : Catalog) (id : TableId) (v : Value) : Except Error PartitionId := do
  let groups ← c.groupsOf id
  match ← c.partitioning id with
  | none =>
    match groups with
    | [only] => return only.id
    | _ => throw (unpartitioned id groups.length)
  | some p =>
    let column ← c.column p.column
    p.kind.target groups column.type v

/-- A table of entries in ascending order of partition groups. -/
abbrev ByGroup (α : Type) := List (PartitionId × α)

/-- Change the entry of a group, which is `default` if there was none. -/
def ByGroup.modify {α : Type} (g : PartitionId) (default : α) (f : α → α) : ByGroup α → ByGroup α
  | [] => [(g, f default)]
  | (h, a) :: rest =>
    if g = h then (h, f a) :: rest
    else if g.n < h.n then (g, f default) :: (h, a) :: rest
    else (h, a) :: ByGroup.modify g default f rest

/-- Route values from position `i` on. -/
def routeFrom (c : Catalog) (id : TableId) (routed : ByGroup (List Nat)) (i : Nat) :
    List Value → Except Error (ByGroup (List Nat))
  | [] => .ok routed
  | v :: rest => do
    let g ← target c id v
    routeFrom c id (routed.modify g [] (· ++ [i])) (i + 1) rest

/-- Each group that some value belongs to, with the positions of those values. -/
def route (c : Catalog) (id : TableId) (values : List Value) :
    Except Error (ByGroup (List Nat)) :=
  routeFrom c id [] 0 values

/-! ### Placements -/

/-- The placement from which a group's data of a column is read.  A store that
    holds the column for all groups of the table is preferred, then the store
    with the lowest identifier. -/
def choose (c : Catalog) (t : Table) (g : PartitionId) (col : ColumnId) :
    Except Error Placement :=
  let holders := (c.placementsOf col).filter (·.group = g)
  let name :=
    match c.column col with
    | .ok column => column.name
    | .error _ => "?"
  require (nowherePlaced name t g)
    (holders.find? (fun p => c.holdsColumn p.store t.groups col) <|> holders.head?)

/-- For each of the groups one placement a column, in column order. -/
def relevantPlacements (c : Catalog) (id : TableId) (groups : List PartitionId) :
    Except Error (ByGroup (List Placement)) := do
  let t ← c.table id
  groups.foldlM (fun chosen g => do
    ensure (t.groups.contains g) (foreignPartition g t)
    let placements ← t.columns.mapM (choose c t g)
    return chosen.modify g [] fun _ => placements) []

/-- Whether a column stays available for every group of a table without a
    store. -/
def survivesWithout (c : Catalog) (t : Table) (s : StoreId) (col : ColumnId) : Bool :=
  t.groups.all fun g => (c.placementsOf col).any fun p => p.store ≠ s && p.group = g

/-- Whether a store could drop a column without leaving a group of the table
    unserved. -/
def probe (c : Catalog) (id : TableId) (s : StoreId) (col : ColumnId) : Except Error Bool := do
  return survivesWithout c (← c.table id) s col

/-! ### Guarded changes -/

/-- Create the groups of a partitioning, in routing order. -/
def addGroups (id : TableId) : Nat → List (List String) → Session (List PartitionId)
  | _, [] => return []
  | i, list :: rest => do
    let g ← Catalog.addGroup id ("p" ++ Number.natText i) list false
    return g :: (← addGroups id (i + 1) rest)

/-- Create the group for values that no other one accepts, where the function
    needs it. -/
def addUnbound (id : TableId) (kind : PartitionKind) : Session (List PartitionId) := do
  if kind.needsUnbound then
    return [← Catalog.addGroup id "UNBOUND" [] true]
  else return []

/-- Partition a table by a column: create one group a qualifier list, or the
    requested number of them for HASH, add UNBOUND where the function needs it,
    and install the function.  The groups of the table so far are dropped with
    their placements. -/
def partition (settings : PartitionSettings) (id : TableId) (kind : PartitionKind)
    (columnName : String) (count : Nat) (qualifiers : List (List String)) :
    Session (List PartitionId) := do
  let c ← get
  let column ← (c.columnNamed id columnName : Except Error Column)
  (kind.validate ⟨column.type, count, qualifiers⟩ settings : Except Error Unit)
  let lists := if kind = .hash then List.replicate count [] else qualifiers
  let bound ← addGroups id 0 lists
  let unbound ← addUnbound id kind
  let groups := bound ++ unbound
  Catalog.install id ⟨kind, column.id⟩ groups
  return groups

/-- Drop a column from a store unless a group would lose its last placement. -/
def dropColumn (id : TableId) (s : StoreId) (col : ColumnId) : Session Unit := do
  let c ← get
  let t ← (c.table id : Except Error Table)
  if survivesWithout c t s col then
    Catalog.deleteColumn s col
  else
    let column ← (c.column col : Except Error Column)
    throw (lastColumnPlacement column.name s id)

/-- Drop a table from a store unless a group would lose the last placement of a
    column. -/
def dropData (id : TableId) (s : StoreId) : Session Unit := do
  let c ← get
  let t ← (c.table id : Except Error Table)
  match t.columns.find? fun col => !survivesWithout c t s col with
  | some col => throw (lastPlacement s col id)
  | none => Catalog.deleteData s id

end Router

end Polystore
