import Polystore.Aggregate
import Polystore.OrdinalSet

/-
  Polystore/Grouping.lean
  =======================
  **Grouping sets.**  An aggregate groups by several subsets of its key at once.
  The subsets are listed in strict grouping order, the key first if it is among
  them; malformed lists are refused, never put in order.  Lists of common shape
  have names: one set, every subset, successive removals of the last key.
-/

namespace Polystore

/-- The shape of a list of grouping sets. -/
inductive GroupingShape where
  /-- The key alone. -/
  | simple
  /-- The key, then the sets left by removing the highest member one by one. -/
  | rollup
  /-- Every subset of the key. -/
  | cube
  | other
deriving DecidableEq, Repr

def GroupingShape.name : GroupingShape → String
  | simple => "SIMPLE"
  | rollup => "ROLLUP"
  | cube => "CUBE"
  | other => "OTHER"

namespace Grouping

def noSets (key : OrdinalSet) : Error :=
  ⟨.grouping, "aggregate with group key " ++ key.text ++ " has no grouping sets"⟩

def strayColumns (set key : OrdinalSet) : Error :=
  ⟨.grouping, "grouping set " ++ set.text ++ " is not a subset of group key " ++ key.text⟩

def unordered (a b : OrdinalSet) : Error :=
  ⟨.grouping, "grouping sets must be strictly ordered, but " ++ a.text ++
    " does not precede " ++ b.text⟩

/-- The first pair of neighbours that is not in strict order. -/
def firstUnordered? : List OrdinalSet → Option (OrdinalSet × OrdinalSet)
  | a :: b :: rest =>
    if a.groupingCompare b = .lt then firstUnordered? (b :: rest) else some (a, b)
  | _ => none

/-- Check a list of grouping sets: not empty, all within the key, in strict
    order. -/
def validate (key : OrdinalSet) (sets : List OrdinalSet) : Except Error Unit := do
  ensure (!sets.isEmpty) (noSets key)
  if let some stray := sets.find? (!key.containsAll ·) then
    throw (strayColumns stray key)
  if let some (a, b) := firstUnordered? sets then
    throw (unordered a b)

/-- Whether the sets start at `expected` and each loses its highest member. -/
def descends (expected : OrdinalSet) : List OrdinalSet → Bool
  | [] => true
  | set :: rest =>
    set = expected &&
      descends (match expected.max? with
        | some top => expected.erase top
        | none => expected) rest

/-- The key and all sets left by removing its highest members. -/
def isRollup (key : OrdinalSet) (sets : List OrdinalSet) : Bool :=
  sets.length = key.card + 1 && descends key sets

/-- The shape of a valid list.  Distinct subsets of the key make up its power set
    as soon as there are enough of them. -/
def shape (key : OrdinalSet) (sets : List OrdinalSet) : GroupingShape :=
  if sets = [key] then .simple
  else if key.card < 64 ∧ sets.length = Nat.pow 2 key.card then .cube
  else if isRollup key sets then .rollup
  else .other

/-- Check a list of grouping sets and name its shape. -/
def classify (key : OrdinalSet) (sets : List OrdinalSet) : Except Error GroupingShape := do
  validate key sets
  return shape key sets

/-- The sets of a rollup over keys in the given order: the shrinking beginnings
    of the list. -/
def rollup (keys : List Nat) : List OrdinalSet :=
  (List.range (keys.length + 1)).reverse.map fun n => .ofList (keys.take n)

def cube (key : OrdinalSet) : List OrdinalSet := key.powerset

end Grouping

/-- What an aggregate computes: one row for each grouping set and each group. -/
structure Aggregation where
  key : OrdinalSet
  sets : List OrdinalSet
  calls : List AggCall
  /-- Whether the output says for each key column if it was grouped by. -/
  indicator : Bool
deriving DecidableEq

namespace Aggregation

/-- A key column of the output.  A set that leaves the column out makes it
    `NULL`. -/
def keyField (a : Aggregation) (input : RowType) (i : Nat) : Except Error Field := do
  let source ← input.field i
  return { source with nullable := source.nullable || !a.sets.all (·.contains i) }

/-- The indicator of a key column. -/
def indicatorField (input : RowType) (i : Nat) : Except Error Field := do
  let source ← input.field i
  return ⟨"i$" ++ source.name, .bool, false⟩

/-- The output of a call at a position; without a name it is named by the
    position. -/
def callField (position : Nat) (c : AggCall) : Field :=
  ⟨c.name.getD ("$f" ++ Number.natText position), c.type, c.isNullable⟩

/-- The output row type: key columns in ascending order, indicators if asked for,
    then one field a call. -/
def rowType (a : Aggregation) (input : RowType) : Except Error RowType := do
  Grouping.validate a.key a.sets
  let keys ← a.key.toList.mapM (a.keyField input)
  let indicators ← if a.indicator then a.key.toList.mapM (indicatorField input) else pure []
  let front := keys ++ indicators
  let calls := a.calls.mapIdx fun i c => callField (front.length + i) c
  return ⟨front ++ calls⟩

end Aggregation

end Polystore
