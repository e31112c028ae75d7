import Polystore.Catalog.Entry
import Polystore.Expr.Basic
import Polystore.Fragment
import Polystore.Grouping

/-
  Polystore/Plan/Node.lean
  ========================
  **Plan nodes.**  A node is an operator of the relational algebra with its
  payload, its physical traits, the type of the rows it produces, and, when a
  store runs it, the native fragment that does its work.  The inputs of an
  operator are nodes named by their numbers, so that alternatives can share them.
-/

namespace Polystore

structure NodeId where
  n : Nat
deriving DecidableEq

namespace NodeId

def text (id : NodeId) : String := "#" ++ Number.natText id.n

instance : Ord NodeId := ⟨compareOn n⟩

instance : Std.TransOrd NodeId := inferInstanceAs (Std.TransCmp (compareOn n))

instance : Std.LawfulEqOrd NodeId where
  eq_of_compare h := congrArg mk (Std.LawfulEqOrd.eq_of_compare h)

end NodeId

/-- A table as a plan sees it. -/
structure TableRef where
  id : TableId
  space : String
  name : String
  /-- The estimated number of rows when the plan was built. -/
  rows : Option Float

def TableRef.text (t : TableRef) : String := t.space ++ "." ++ t.name

/-- What is done to the rows of a table. -/
inductive ModifyKind where
  | insert
  | update
  | delete
  | merge
deriving DecidableEq

def ModifyKind.name : ModifyKind → String
  | insert => "INSERT"
  | update => "UPDATE"
  | delete => "DELETE"
  | merge => "MERGE"

/-- An order on rows with a window of rows to keep. -/
structure Ordered where
  collation : Collation
  /-- How many rows to skip. -/
  offset : Option Nat
  /-- How many rows to keep at most. -/
  fetch : Option Nat
deriving DecidableEq

/-- An operator of the algebra. -/
inductive RelOp where
  /-- All rows of a table. -/
  | scan (table : TableRef)
  /-- The rows on which the condition is `TRUE`. -/
  | filter (input : NodeId) (condition : Expr)
  /-- One field an expression. -/
  | project (input : NodeId) (exprs : List Expr)
  | aggregate (input : NodeId) (aggregation : Aggregation)
  | sort (input : NodeId) (ordered : Ordered)
  /-- Literal rows. -/
  | values (tuples : List (List Value))
  /-- Write the rows of the input to a table. -/
  | modify (input : NodeId) (table : TableRef) (kind : ModifyKind)
  /-- Hand rows produced under `source` to the node's own convention. -/
  | converter (input : NodeId) (source : Convention)

/-- An operator without its payload. -/
inductive RelKind where
  | scan
  | filter
  | project
  | aggregate
  | sort
  | values
  | modify
  | converter
deriving DecidableEq

def RelKind.name : RelKind → String
  | scan => "Scan"
  | filter => "Filter"
  | project => "Project"
  | aggregate => "Aggregate"
  | sort => "Sort"
  | values => "Values"
  | modify => "Modify"
  | converter => "Converter"

namespace RelOp

def kind : RelOp → RelKind
  | scan .. => .scan
  | filter .. => .filter
  | project .. => .project
  | aggregate .. => .aggregate
  | sort .. => .sort
  | values .. => .values
  | modify .. => .modify
  | converter .. => .converter

def inputs : RelOp → List NodeId
  | scan .. | values .. => []
  | filter i _ | project i _ | aggregate i _ | sort i _ | modify i _ _ | converter i _ => [i]

/-- The operator over other inputs; those that are not given stay. -/
def withInputs (op : RelOp) (inputs : List NodeId) : RelOp :=
  match inputs, op with
  | i :: _, filter _ c => filter i c
  | i :: _, project _ es => project i es
  | i :: _, aggregate _ a => aggregate i a
  | i :: _, sort _ o => sort i o
  | i :: _, modify _ t k => modify i t k
  | i :: _, converter _ c => converter i c
  | _, op => op

/-- The sets are named only when they are not just the key. -/
def describeAggregation (a : Aggregation) : String :=
  "group=" ++ a.key.text ++
    (if a.sets = [a.key] then "" else
      ", groups=[" ++ Text.commaList (a.sets.map OrdinalSet.text) ++ "]") ++
    (if a.indicator then ", indicator=true" else "") ++
    (if a.calls.isEmpty then "" else
      ", aggs=[" ++ Text.commaList (a.calls.map AggCall.text) ++ "]")

def describeOrdered (o : Ordered) : String :=
  "sort=" ++ Collation.text o.collation ++
    (match o.offset with
      | some n => ", offset=" ++ Number.natText n
      | none => "") ++
    (match o.fetch with
      | some n => ", fetch=" ++ Number.natText n
      | none => "")

def describeTuple (tuple : List Value) : String :=
  "(" ++ Text.commaList (tuple.map Value.text) ++ ")"

/-- The payload without the inputs. -/
def describe : RelOp → String
  | scan t => "table=" ++ t.text
  | filter _ c => "condition=" ++ c.text
  | project _ es => "exprs=[" ++ Text.commaList (es.map Expr.text) ++ "]"
  | aggregate _ a => describeAggregation a
  | sort _ o => describeOrdered o
  | values tuples => "tuples=[" ++ Text.commaList (tuples.map describeTuple) ++ "]"
  | modify _ t k => "table=" ++ t.text ++ ", op=" ++ k.name
  | converter _ c => "from=" ++ c.text

end RelOp

structure Node where
  op : RelOp
  traits : Traits
  row : RowType
  /-- What the store runs, for nodes of a store's convention. -/
  native : Option Fragment := none

namespace Node

def kind (n : Node) : RelKind := n.op.kind

def inputs (n : Node) : List NodeId := n.op.inputs

def convention (n : Node) : Convention := n.traits.convention

def withConvention (n : Node) (c : Convention) : Node :=
  { n with traits := { n.traits with convention := c } }

def withInputs (n : Node) (inputs : List NodeId) : Node :=
  { n with op := n.op.withInputs inputs }

def withNative (n : Node) (f : Fragment) : Node := { n with native := some f }

/-- The convention in which the inputs have to be delivered.  Only a converter
    takes another one than its own. -/
def inputConvention (n : Node) : Convention :=
  match n.op with
  | .converter _ source => source
  | _ => n.convention

/-- One line: operator, traits, payload and fragment. -/
def label (n : Node) : String :=
  n.kind.name ++ " [" ++ n.traits.text ++ "] " ++ n.op.describe ++
    (match n.native with
      | some f => " native=" ++ f.text
      | none => "")

/-- The traits, payload and fragment, for the drawing of a plan. -/
def details (n : Node) : String :=
  n.traits.text ++ "; " ++ n.op.describe ++
    (match n.native with
      | some f => "; native=" ++ f.text
      | none => "")

end Node

end Polystore
