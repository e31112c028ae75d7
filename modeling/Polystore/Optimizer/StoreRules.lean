import Polystore.Catalog.Basic
import Polystore.Config
import Polystore.Optimizer.Rule
import Polystore.Pushdown.Dispatch

/-
  Polystore/Optimizer/StoreRules.lean
  ===================================
  **Rules of a store.**  Each store brings rules for its own convention: one that
  reads the tables it holds, one for each operator its dialect can say over nodes
  of the store, and one that hands rows of the store to the local engine.  A
  filter that can be pushed only in part leaves a local filter above the pushed
  one.
-/

namespace Polystore

namespace StoreRules

/-- A store and the catalog in which its tables are looked up. -/
structure Target where
  catalog : Catalog
  store : Store

namespace Target

def convention (t : Target) : Convention := .store t.store.backend t.store.name

def dialect (t : Target) : Dialect := t.store.backend.dialect

/-! ### What the store knows about its nodes -/

/-- The name of a column in the store: the physical one if the catalog has it. -/
def columnName (t : Target) (c : Column) : String :=
  ((t.catalog.location? t.store.id c.id).bind (·.name)).getD c.name

/-- Where the store keeps a table: the first physical name of any of its
    columns. -/
def place? (t : Target) (columns : List Column) : Option (Option String × String) :=
  columns.findSome? fun c => do
    let l ← t.catalog.location? t.store.id c.id
    return (l.schema, ← l.table)

def positions (columns : List Column) (key : List ColumnId) : List Nat :=
  key.filterMap fun id => columns.findIdx? (·.id = id)

/-- What is known about the rows of a table. -/
def tableContext (t : Target) (id : TableId) : Except Error PushContext := do
  let table ← t.catalog.table id
  let columns ← t.catalog.columnsOf id
  let (schema, name) := (t.place? columns).getD (some table.space, table.name)
  return {
    names := columns.map t.columnName
    partitionKey := positions columns table.partitionKey
    clusteringKey := positions columns table.clusteringKey
    schema
    table := some name }

/-- What is known about the rows of a node down to a depth. -/
def contextTo (t : Target) (m : Memo Float) : Nat → NodeId → Except Error (Option PushContext)
  | 0, _ => return none
  | depth + 1, id => do
    let n ← m.node id
    match n.op with
    | .scan table => return some (← t.tableContext table.id)
    | .filter input _ | .sort input _ => contextTo t m depth input
    | .project input _ => return (← contextTo t m depth input).map (·.renamed n.row.names)
    | _ => return none

/-- What is known about the rows of a node; nothing if the dialect has no way to
    name its fields.  Inputs are older than a node, so its number bounds the
    depth. -/
def context (t : Target) (m : Memo Float) (id : NodeId) : Except Error (Option PushContext) :=
  t.contextTo m (id.n + 1) id

/-! ### Actions -/

/-- The fragment of an operator over rows of which something is known, if there
    is one. -/
abbrev Saying := PushContext → Option Fragment

/-- A node like `n` with another operator, to be run by the store. -/
def pushed (t : Target) (n : Node) (op : RelOp) (native : Fragment) : Node :=
  { n.withConvention t.convention with op, native := some native }

/-- Read a table that the store holds. -/
def scanAction (t : Target) : Action Unit := do
  let n ← Action.matchedNode 0
  if let .scan table := n.op then
    if ← (t.catalog.holdsTable t.store.id table.id : Except Error Bool) then
      let ctx ← (t.tableContext table.id : Except Error PushContext)
      discard <| Action.transformTo (t.pushed n n.op (t.dialect.scan ctx))

/-- Run an operator over the matched input in the store, if the dialect has a
    fragment for it. -/
def pushAction (t : Target) (saying? : Node → Option Saying) : Action Unit := do
  let n ← Action.matchedNode 0
  let input ← Action.matchedId 1
  let m := (← get).memo
  if let some say := saying? n then
    if let some ctx ← (t.context m input : Except Error (Option PushContext)) then
      if let some native := say ctx then
        discard <| Action.transformTo (t.pushed n (n.op.withInputs [input]) native)

/-- Push a filter, whole or in part. -/
def filterAction (t : Target) : Action Unit := do
  let n ← Action.matchedNode 0
  let input ← Action.matchedId 1
  let m := (← get).memo
  if let .filter _ condition := n.op then
    if let some ctx ← (t.context m input : Except Error (Option PushContext)) then
      match t.dialect.filter condition ctx with
      | .full native =>
        discard <| Action.transformTo (t.pushed n (.filter input condition) native)
      | .split native part residual =>
        let below ← Action.register (t.pushed n (.filter input part) native)
        discard <| Action.transformTo
          { n.withConvention .enumerable with op := .filter below residual, native := none }
      | .refused _ => return

/-- How a projection is said. -/
def project? (t : Target) (n : Node) : Option Saying :=
  match n.op, t.dialect.project with
  | .project _ exprs, some say => some (say exprs n.row.names)
  | _, _ => none

/-- How an aggregate is said.  No store gives indicators. -/
def aggregate? (t : Target) (n : Node) : Option Saying :=
  match n.op, t.dialect.aggregate with
  | .aggregate _ a, some say => if a.indicator then none else some (say a n.row.names)
  | _, _ => none

/-- How a sort is said. -/
def sort? (t : Target) (n : Node) : Option Saying :=
  match n.op, t.dialect.sort with
  | .sort _ o, some say => some (say o)
  | _, _ => none

/-- Hand the rows of a node of the store to the local engine. -/
def convertAction (t : Target) : Action Unit := do
  let input ← Action.matchedId 0
  let n ← Action.matchedNode 0
  discard <| Action.transformTo
    { n.withConvention .enumerable with op := .converter input t.convention, native := none }

/-! ### The rules -/

/-- A logical operator over one of some operators of the store. -/
def above (t : Target) (kind : RelKind) (below : List RelKind) : Pattern :=
  { kind := some kind
    convention := some .logical
    children :=
      [{ convention := some t.convention, guard := some fun n => below.contains n.kind }] }

/-- A rule that pushes an operator. -/
def pushRule (t : Target) (kind : RelKind) (description : String) (pattern : Pattern)
    (action : Action Unit) : Rule :=
  { name := "Adapter" ++ kind.name ++ "Rule[" ++ t.convention.text ++ "]"
    description
    pattern
    action }

def scanRule (t : Target) : Rule :=
  t.pushRule .scan "Reads a table held by the store"
    { kind := some .scan, convention := some .logical } t.scanAction

def filterRule (t : Target) : Rule :=
  t.pushRule .filter "Pushes a filter into the store, keeping any residual local"
    (t.above .filter [.scan]) t.filterAction

def projectRule (t : Target) : Rule :=
  t.pushRule .project "Pushes an operator into the store" (t.above .project [.scan, .filter])
    (t.pushAction t.project?)

def aggregateRule (t : Target) : Rule :=
  t.pushRule .aggregate "Pushes an operator into the store"
    (t.above .aggregate [.scan, .filter, .project]) (t.pushAction t.aggregate?)

def sortRule (t : Target) : Rule :=
  t.pushRule .sort "Pushes an operator into the store"
    (t.above .sort [.scan, .filter, .project]) (t.pushAction t.sort?)

def converterRule (t : Target) : Rule :=
  { name := "ConverterRule[" ++ t.convention.text ++ "]"
    description := "Returns rows produced by the store to the enumerable engine"
    pattern := { convention := some t.convention }
    action := t.convertAction }

end Target

/-- A value if the condition holds. -/
def only {α : Type} (condition : Bool) (a : α) : List α := if condition then [a] else []

/-- The rules of a store, for what its dialect can say.  Sorts are pushed only if
    the settings ask for it. -/
def ofStore (c : Catalog) (store : Store) (s : OptimizerSettings) : List Rule :=
  let t : Target := ⟨c, store⟩
  [t.scanRule, t.filterRule] ++
    only t.dialect.project.isSome t.projectRule ++
    only t.dialect.aggregate.isSome t.aggregateRule ++
    only (s.sortPushdown && t.dialect.sort.isSome) t.sortRule ++
    [t.converterRule]

end StoreRules

end Polystore
