import Polystore.RowType
import Polystore.Traits

/-
  Polystore/Aggregate.lean
  ========================
  **Aggregate calls.**  A call applies an aggregate function to fields of the
  aggregate's input.  It may restrict the rows it sees by a boolean field and may
  ask for an order of the values within a group.
-/

namespace Polystore

inductive AggKind where
  /-- The rows, or the values that are not `NULL`. -/
  | count
  | sum
  | min
  | max
  | avg
deriving DecidableEq

def AggKind.name : AggKind → String
  | count => "COUNT"
  | sum => "SUM"
  | min => "MIN"
  | max => "MAX"
  | avg => "AVG"

/-- The type of the result from the types of the arguments. -/
def AggKind.resultType? : AggKind → List DataType → Option DataType
  | count, _ => some .bigint
  | sum, [t] => if t.isNumeric then some t else none
  | min, [t] | max, [t] => if t.isOrderable then some t else none
  | avg, [t] => if t.isNumeric then some .double else none
  | _, _ => none

/-- One aggregate function applied to fields of the input. -/
structure AggCall where
  kind : AggKind
  args : List Nat
  distinct : Bool
  /-- The boolean field that selects the rows to count. -/
  filter : Option Nat
  /-- The order of the values within a group. -/
  order : Collation
  type : DataType
  name : Option String
deriving DecidableEq

namespace AggCall

def argumentTypes (kind : AggKind) (types : List DataType) : Error :=
  ⟨.type, kind.name ++ " cannot be applied to (" ++ Text.commaList (types.map DataType.name) ++ ")"⟩

def filterType (f : Field) : Error :=
  ⟨.type, "aggregate filter '" ++ f.name ++ "' must be BOOLEAN, got " ++ f.type.name⟩

/-- A call over rows of type `input`, with its type derived. -/
def create (kind : AggKind) (args : List Nat) (distinct : Bool) (filter : Option Nat)
    (input : RowType) (name : Option String) : Except Error AggCall := do
  let types := (← args.mapM input.field).map (·.type)
  let type ← require (argumentTypes kind types) (kind.resultType? types)
  if let some i := filter then
    let f ← input.field i
    ensure (f.type = .bool) (filterType f)
  return ⟨kind, args, distinct, filter, [], type, name⟩

/-- Only a count is never `NULL`. -/
def isNullable (c : AggCall) : Bool := c.kind ≠ .count

/-- The fields read: arguments, filter, order. -/
def inputRefs (c : AggCall) : List Nat :=
  c.args ++ c.filter.toList ++ c.order.map (·.field)

/-- The call with every ordinal replaced, the order's first. -/
def remap (f : Nat → Except Error Nat) (c : AggCall) : Except Error AggCall := do
  let order ← c.order.mapM fun o => do return { o with field := ← f o.field }
  let args ← c.args.mapM f
  let filter ← c.filter.mapM f
  return { c with args, filter, order }

/-- The text: function, arguments, order, filter. -/
def text (c : AggCall) : String :=
  c.kind.name ++ "(" ++ (if c.distinct then "DISTINCT " else "") ++
    Text.commaList (c.args.map fun i => "$" ++ Number.natText i) ++
    (if c.order.isEmpty then "" else
      " ORDER BY " ++ Text.commaList (c.order.map FieldCollation.text)) ++ ")" ++
    (match c.filter with
      | some i => " FILTER $" ++ Number.natText i
      | none => "")

end AggCall

end Polystore
