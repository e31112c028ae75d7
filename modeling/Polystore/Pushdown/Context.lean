/-
  Polystore/Pushdown/Context.lean
  ===============================
  **What a dialect knows about its input.**  The names under which a backend
  keeps the fields of the input rows, which fields make up the key, and where the
  table is.
-/

namespace Polystore

/-- The input of an operator to push down. -/
structure PushContext where
  /-- The backend's name of each field. -/
  names : List String := []
  /-- The fields that together choose the storage partition. -/
  partitionKey : List Nat := []
  /-- The fields that order rows within a storage partition. -/
  clusteringKey : List Nat := []
  /-- The keyspace, database or directory. -/
  schema : Option String := none
  /-- The table, collection or index. -/
  table : Option String := none

namespace PushContext

def name? (ctx : PushContext) (field : Nat) : Option String := ctx.names[field]?

/-- The name of a field; dialects ask only for fields that have one. -/
def name (ctx : PushContext) (field : Nat) : String := (ctx.name? field).getD "?"

def inPartitionKey (ctx : PushContext) (field : Nat) : Bool := ctx.partitionKey.contains field

def inClusteringKey (ctx : PushContext) (field : Nat) : Bool := ctx.clusteringKey.contains field

def inPrimaryKey (ctx : PushContext) (field : Nat) : Bool :=
  ctx.inPartitionKey field || ctx.inClusteringKey field

/-- The context above a projection, which gives the fields new names.  The key is
    no longer known there. -/
def renamed (ctx : PushContext) (names : List String) : PushContext :=
  { ctx with names, partitionKey := [], clusteringKey := [] }

def tableName (ctx : PushContext) : String := ctx.table.getD ""

end PushContext

end Polystore
