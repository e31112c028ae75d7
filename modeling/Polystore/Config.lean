import Polystore.Json.Printer
import Polystore.Json.Reader

/-
  Polystore/Config.lean
  =====================
  **Settings.**  Three groups of settings with defaults: budgets of the
  optimizer, weights of the cost model, limits on partitionings.  They are
  written as indented JSON and read back leniently: absent fields keep their
  defaults and unknown ones are ignored, but a field given twice or with a value
  of another type makes the whole text unreadable.
-/

namespace Polystore

/-- Budgets and switches of the optimizer. -/
structure OptimizerSettings where
  maxIterations : Nat := 100
  maxRuleFirings : Nat := 10000
  trace : Bool := false
  sortPushdown : Bool := false
deriving DecidableEq

/-- Weights of the cost model.  `multipliers` is ordered by backend name. -/
structure CostSettings where
  cpuWeight : Float := 1.0
  ioWeight : Float := 4.0
  multipliers : List (String × Float) :=
    [("DOCUMENT", 0.8), ("FILE", 0.8), ("SEARCH", 0.8), ("WIDE_COLUMN", 0.8)]
  defaultRowCount : Float := 100.0
deriving BEq

structure PartitionSettings where
  minHashGroups : Nat := 2
  maxGroups : Nat := 1024
deriving DecidableEq

structure Config where
  optimizer : OptimizerSettings := {}
  cost : CostSettings := {}
  partition : PartitionSettings := {}
deriving BEq

/-- How much a backend's work counts; one that is not listed counts in full. -/
def CostSettings.multiplier (s : CostSettings) (backend : String) : Float :=
  ((s.multipliers.find? (·.1 = backend)).map (·.2)).getD 1.0

/-! ### Writing -/

/-- The members in the order of the fields. -/
def OptimizerSettings.toJson (s : OptimizerSettings) : Json :=
  .object
    [("max_iterations", .nat s.maxIterations), ("max_rule_firings", .nat s.maxRuleFirings),
     ("enable_trace", .bool s.trace), ("enable_sort_pushdown", .bool s.sortPushdown)]

/-- The members in the order of the fields. -/
def CostSettings.toJson (s : CostSettings) : Json :=
  .object
    [("cpu_weight", .float s.cpuWeight), ("io_weight", .float s.ioWeight),
     ("adapter_multipliers", .object (s.multipliers.map fun (name, x) => (name, .float x))),
     ("default_row_count", .float s.defaultRowCount)]

/-- The members in the order of the fields. -/
def PartitionSettings.toJson (s : PartitionSettings) : Json :=
  .object
    [("min_hash_groups", .nat s.minHashGroups), ("max_partition_groups", .nat s.maxGroups)]

/-- The members in the order of the groups. -/
def Config.toJson (c : Config) : Json :=
  .object
    [("optimizer", c.optimizer.toJson), ("cost", c.cost.toJson),
     ("partition", c.partition.toJson)]

def Config.text (c : Config) : String := c.toJson.pretty

/-! ### Reading -/

/-- A field that keeps its default when absent. -/
def orDefault {α : Type} (default : α) (read? : Json.Raw → Option α) :
    Option Json.Raw → Option α
  | none => some default
  | some raw => read? raw

/-- Read the optimizer's settings. -/
def OptimizerSettings.ofRaw? (raw : Json.Raw) : Option OptimizerSettings := do
  let default : OptimizerSettings := {}
  match ← raw.fields? ["max_iterations", "max_rule_firings", "enable_trace",
      "enable_sort_pushdown"] with
  | [iterations, firings, trace, sort] =>
    some
      { maxIterations := ← orDefault default.maxIterations Json.Raw.nat64? iterations
        maxRuleFirings := ← orDefault default.maxRuleFirings Json.Raw.nat64? firings
        trace := ← orDefault default.trace Json.Raw.bool? trace
        sortPushdown := ← orDefault default.sortPushdown Json.Raw.bool? sort }
  | _ => none

/-- Set an entry of a table ordered by name. -/
def setEntry {α : Type} (name : String) (a : α) : List (String × α) → List (String × α)
  | [] => [(name, a)]
  | (n, b) :: rest =>
    if name < n then (name, a) :: (n, b) :: rest
    else if name = n then (name, a) :: rest
    else (n, b) :: setEntry name a rest

/-- Read a table of doubles; of several entries of one name the last counts. -/
def multipliers? : Json.Raw → Option (List (String × Float))
  | .object members =>
    members.foldlM (fun table (name, value) => do
      some (setEntry (← name) (← value.float?) table)) []
  | _ => none

def CostSettings.ofRaw? (raw : Json.Raw) : Option CostSettings := do
  let default : CostSettings := {}
  match ← raw.fields? ["cpu_weight", "io_weight", "adapter_multipliers",
      "default_row_count"] with
  | [cpu, io, table, rows] =>
    some
      { cpuWeight := ← orDefault default.cpuWeight Json.Raw.float? cpu
        ioWeight := ← orDefault default.ioWeight Json.Raw.float? io
        multipliers := ← orDefault default.multipliers multipliers? table
        defaultRowCount := ← orDefault default.defaultRowCount Json.Raw.float? rows }
  | _ => none

def PartitionSettings.ofRaw? (raw : Json.Raw) : Option PartitionSettings := do
  let default : PartitionSettings := {}
  match ← raw.fields? ["min_hash_groups", "max_partition_groups"] with
  | [low, high] =>
    some
      { minHashGroups := ← orDefault default.minHashGroups Json.Raw.nat64? low
        maxGroups := ← orDefault default.maxGroups Json.Raw.nat64? high }
  | _ => none

/-- Read all settings from a tree. -/
def Config.ofRaw? (raw : Json.Raw) : Option Config := do
  match ← raw.fields? ["optimizer", "cost", "partition"] with
  | [optimizer, cost, partition] =>
    some
      { optimizer := ← orDefault {} OptimizerSettings.ofRaw? optimizer
        cost := ← orDefault {} CostSettings.ofRaw? cost
        partition := ← orDefault {} PartitionSettings.ofRaw? partition }
  | _ => none

def Config.read? (text : String) : Option Config :=
  (Json.Raw.read? text).bind Config.ofRaw?

end Polystore
