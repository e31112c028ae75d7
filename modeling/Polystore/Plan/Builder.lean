import Polystore.Catalog.Basic
import Polystore.Expr.Check
import Polystore.Plan.Basic

/-
  Polystore/Plan/Builder.lean
  ===========================
  **Building logical plans.**  A plan is built from its leaf upwards.  Every step
  is checked against the row type of the node it is put on, and gives the row
  type of its own; a refused step leaves the plan as it was.
-/

namespace Polystore

namespace Plan

/-! ### Errors -/

def tupleLength (i given arity : Nat) : Error :=
  ⟨.schema, "tuple " ++ Number.natText i ++ " has " ++ Number.natText given ++
    " values but the row type has " ++ Number.natText arity ++ " fields"⟩

def misfit (v : Value) (f : Field) : Error :=
  ⟨.type, "value " ++ v.text ++ " does not fit field " ++ f.text⟩

def noField (name : String) (row : RowType) : Error :=
  ⟨.schema, "no field named '" ++ name ++ "' in " ++ row.text⟩

def conditionType (e : Expr) : Error :=
  ⟨.type, "filter condition " ++ e.text ++ " must be BOOLEAN, got " ++ e.type.name⟩

def insertColumns (t : TableRef) (expected given : Nat) : Error :=
  ⟨.schema, "INSERT into " ++ t.text ++ " expects " ++ Number.natText expected ++
    " columns, got " ++ Number.natText given⟩

/-! ### Leaves -/

/-- The plan of a single logical node. -/
def ofLeaf (op : RelOp) (row : RowType) : Except Error Plan := do
  let (root, arena) ← Arena.add {} ⟨op, {}, row, none⟩
  return ⟨arena, root⟩

/-- All rows of a table whose row type is known. -/
def scanRef (t : TableRef) (row : RowType) : Except Error Plan := ofLeaf (.scan t) row

/-- All rows of a table of the catalog. -/
def scan (c : Catalog) (space name : String) : Except Error Plan := do
  let t ← c.tableNamed space name
  scanRef ⟨t.id, t.space, t.name, t.rows⟩ (← c.rowType t.id)

/-- Whether a field may hold a value. -/
def fits (v : Value) (f : Field) : Bool :=
  if v.isNull then f.nullable else v.dataType.coercesTo f.type

/-- Check one tuple against the row type. -/
def checkTuple (row : RowType) (i : Nat) (tuple : List Value) : Except Error Unit := do
  ensure (tuple.length = row.arity) (tupleLength i tuple.length row.arity)
  for (v, f) in tuple.zip row.fields do
    ensure (fits v f) (misfit v f)

def checkTuples (row : RowType) (i : Nat) : List (List Value) → Except Error Unit
  | [] => return ()
  | tuple :: rest => do
    checkTuple row i tuple
    checkTuples row (i + 1) rest

/-- Literal rows. -/
def values (row : RowType) (tuples : List (List Value)) : Except Error Plan := do
  checkTuples row 0 tuples
  ofLeaf (.values tuples) row

/-! ### Naming fields -/

/-- The ordinal of a named field. -/
def ordinal (row : RowType) (name : String) : Except Error Nat :=
  require (noField name row) (row.indexOf? name)

/-- A reference to a named field of the plan's rows. -/
def field (p : Plan) (name : String) : Except Error Expr := do
  let row ← p.rowType
  let i ← ordinal row name
  return .field i (← row.field i).type

/-- An aggregate call over named fields of the plan's rows. -/
def aggCall (p : Plan) (kind : AggKind) (args : List String) (distinct : Bool)
    (name : Option String) : Except Error AggCall := do
  let row ← p.rowType
  AggCall.create kind (← args.mapM (ordinal row)) distinct none row name

/-! ### Steps -/

/-- Whether an expression may be `NULL` on rows of a type.  Division is taken to
    be able to produce it; the tests for `NULL` never do. -/
def mayBeNull (row : RowType) : Expr → Bool
  | .literal v _ => v.isNull
  | .field i _ => (row.fields[i]?).all (·.nullable)
  | .param .. => true
  | .call op operands _ =>
    match op with
    | .isNull | .isNotNull => false
    | .arith .divide => true
    | _ => anyMayBeNull operands
where
  anyMayBeNull : List Expr → Bool
    | [] => false
    | e :: rest => mayBeNull row e || anyMayBeNull rest

/-- A node put on top of a plan. -/
inductive Step where
  | filter (condition : Expr)
  /-- Expressions with the names of their fields, if they have one. -/
  | project (columns : List (Expr × Option String))
  /-- Named fields in the given order. -/
  | projectFields (names : List String)
  | aggregate (a : Aggregation)
  /-- Group by named fields. -/
  | groupBy (keys : List String) (calls : List AggCall)
  | sort (o : Ordered)
  /-- Skip and keep rows in the order in which they come. -/
  | limit (offset fetch : Option Nat)
  /-- Write the rows to a table; the result is the number of rows. -/
  | modify (t : TableRef) (kind : ModifyKind)

/-- Put a node on the root. -/
def push (p : Plan) (op : RelOp) (traits : Traits) (row : RowType) : Except Error Plan := do
  let (root, arena) ← p.arena.add ⟨op, traits, row, none⟩
  return ⟨arena, root⟩

def filter (p : Plan) (condition : Expr) : Except Error Plan := do
  let row ← p.rowType
  condition.check row
  ensure (condition.type = .bool || condition.type = .any) (conditionType condition)
  p.push (.filter p.root condition) {} row

/-- The output field of the expression at a position: a field keeps its name, any
    other expression without a name is named by the position. -/
def outputField (row : RowType) (i : Nat) (column : Expr × Option String) :
    Except Error Field := do
  let (e, name?) := column
  e.check row
  let name ← match name?, e.asField? with
    | some name, _ => pure name
    | none, some source => pure (← row.field source).name
    | none, none => pure ("$f" ++ Number.natText i)
  return ⟨name, e.type, mayBeNull row e⟩

/-- The output fields of the expressions from position `i` on. -/
def outputFields (row : RowType) (i : Nat) :
    List (Expr × Option String) → Except Error (List Field)
  | [] => return []
  | column :: rest => do
    let f ← outputField row i column
    return f :: (← outputFields row (i + 1) rest)

def project (p : Plan) (columns : List (Expr × Option String)) : Except Error Plan := do
  let row ← p.rowType
  let fields ← outputFields row 0 columns
  p.push (.project p.root (columns.map (·.1))) {} ⟨fields⟩

def aggregate (p : Plan) (a : Aggregation) : Except Error Plan := do
  let row ← p.rowType
  for call in a.calls do
    for i in call.inputRefs do
      discard <| row.field i
  p.push (.aggregate p.root a) {} (← a.rowType row)

def groupBy (p : Plan) (keys : List String) (calls : List AggCall) : Except Error Plan := do
  let row ← p.rowType
  let key := OrdinalSet.ofList (← keys.mapM (ordinal row))
  p.aggregate ⟨key, [key], calls, false⟩

def sort (p : Plan) (o : Ordered) : Except Error Plan := do
  let row ← p.rowType
  for c in o.collation do
    discard <| row.field c.field
  p.push (.sort p.root o) { collation := o.collation } row

def modify (c : Catalog) (p : Plan) (t : TableRef) (kind : ModifyKind) : Except Error Plan := do
  let target ← c.rowType t.id
  let row ← p.rowType
  ensure (kind ≠ .insert || row.arity = target.arity) (insertColumns t target.arity row.arity)
  p.push (.modify p.root t kind) {} ⟨[⟨"ROWCOUNT", .bigint, false⟩]⟩

/-- Put a step on top of a plan. -/
def step (c : Catalog) (p : Plan) : Step → Except Error Plan
  | .filter condition => p.filter condition
  | .project columns => p.project columns
  | .projectFields names => do
    p.project (← names.mapM fun name => do return (← p.field name, none))
  | .aggregate a => p.aggregate a
  | .groupBy keys calls => p.groupBy keys calls
  | .sort o => p.sort o
  | .limit offset fetch => p.sort ⟨[], offset, fetch⟩
  | .modify t kind => modify c p t kind

end Plan

end Polystore
