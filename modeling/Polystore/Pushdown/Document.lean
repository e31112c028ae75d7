import Polystore.Pushdown.Dialect

/-
  Polystore/Pushdown/Document.lean
  ================================
  **Document stores.**  A filter becomes a query document, which names for each
  field the operators that have to hold, with `$or` over several branches.
  Projections, aggregates and sorts become stages of a pipeline.

  The operators `$ne` and `$nin` also match documents in which the field is
  missing or null, but `<>` is never true of `NULL`; so a query that excludes a
  value excludes null with it.
-/

namespace Polystore.Document

def support : FilterSupport := ⟨.document, true, true, true, false⟩

def scan (ctx : PushContext) : Fragment :=
  { backend := .document
    clause := .scan
    body := .json <| .ofMembers <|
      ("find", .string ctx.tableName) ::
        (ctx.schema.map fun db => ("$db", Json.string db)).toList }

/-! ### Filters -/

/-- Exclude one more value. -/
def exclude (value : Json) (ops : Json.Members) : Json.Members :=
  match Json.lookup "$nin" ops, Json.lookup "$ne" ops with
  | some (.array values), _ =>
    if values.contains value then ops
    else Json.insert "$nin" (.array (values ++ [value])) ops
  | _, some previous =>
    let values := if previous == value then [previous] else [previous, value]
    Json.insert "$nin" (.array values) (Json.remove "$ne" ops)
  | _, none => Json.insert "$ne" value ops

/-- Add one end of a range. -/
def bound (strict inclusive : String) (b : Option Bound) (ops : Json.Members) : Json.Members :=
  match b with
  | some b => Json.insert (if b.inclusive then inclusive else strict) b.value.json ops
  | none => ops

/-- Add the operators of a term. -/
def addTerm (t : Term) (ops : Json.Members) : Json.Members :=
  match t with
  | .eq _ v => Json.insert "$eq" v.json ops
  | .ne _ v => exclude v.json ops
  | .range _ lower upper => bound "$lt" "$lte" upper (bound "$gt" "$gte" lower ops)
  | .isNull _ => Json.insert "$eq" .null ops
  | .isNotNull _ => exclude .null ops
  | .like _ p => Json.insert "$regex" (.string (likeRegex p)) ops

/-- The operators of each field name. -/
abbrev Fields := List (String × Json.Members)

/-- Change the operators of a field. -/
def atField (name : String) (f : Json.Members → Json.Members) : Fields → Fields
  | [] => [(name, f [])]
  | (n, ops) :: rest =>
    if name = n then (n, f ops) :: rest else (n, ops) :: atField name f rest

/-- The operators of all terms. -/
def addTerms (ctx : PushContext) (terms : List Term) : Fields :=
  terms.foldl (fun fields t => atField (ctx.name t.field) (addTerm t) fields) []

/-- Exclude null wherever a value is excluded by a comparison. -/
def excludeNulls (ctx : PushContext) (terms : List Term) (fields : Fields) : Fields :=
  terms.foldl (fun fields t =>
    match t with
    | .ne i _ => atField (ctx.name i) (exclude .null) fields
    | _ => fields) fields

/-- A lone equality with a constant is written as the bare value. -/
def condition : Json.Members → Json
  | [(op, value)] =>
    match value with
    | .null | .object _ => .object [(op, value)]
    | _ => if op = "$eq" then value else .object [(op, value)]
  | ops => .object ops

/-- The query document of one branch. -/
def branch (ctx : PushContext) (terms : List Term) : Json :=
  .ofMembers <| (excludeNulls ctx terms (addTerms ctx terms)).map fun (name, ops) =>
    (name, condition ops)

/-- The query document of several branches. -/
def query (ctx : PushContext) : List (List Term) → Json
  | [terms] => branch ctx terms
  | branches => .single "$or" (.array (branches.map (branch ctx)))

def filter (e : Expr) (ctx : PushContext) : Pushdown :=
  pushFilter e ctx support (fun _ => true) fun ctx branches => .json (query ctx branches)

/-! ### Projections -/

def path? (ctx : PushContext) (i : Nat) : Option String := (ctx.name? i).map ("$" ++ ·)

/-- The members of a `$project` stage. -/
def projectFields (ctx : PushContext) : List (Expr × String) → Option Json.Members
  | [] => some []
  | (e, name) :: rest => do
    let path ← path? ctx (← e.asField?)
    some ((name, .string path) :: (← projectFields ctx rest))

def project (exprs : List Expr) (names : List String) (ctx : PushContext) : Option Fragment := do
  let fields ← projectFields ctx (exprs.zip names)
  let fields := if Json.hasMember "_id" fields then fields else fields ++ [("_id", .int 0)]
  some
    { backend := .document
      clause := .project
      body := .json (.single "$project" (.ofMembers fields)) }

/-! ### Aggregates -/

/-- The number of documents in which a path is present and not null. -/
def nonNullCount (path : String) : Json :=
  let present := Json.array [.single "$ifNull" (.array [.string path, .null]), .null]
  .single "$sum" (.single "$cond" (.array [.single "$eq" present, .int 0, .int 1]))

/-- The accumulators and the output fields so far. -/
structure Pipeline where
  group : Json.Members
  project : Json.Members

/-- Add an accumulator and its output, unless the name is taken. -/
def Pipeline.add (p : Pipeline) (name : String) (accumulator output : Json) : Option Pipeline :=
  if Json.hasMember name p.group then none
  else some ⟨Json.insert name accumulator p.group, Json.insert name output p.project⟩

/-- Add a sum.  The store's sum over no values is zero, so the values are counted
    beside it and an empty group gives null. -/
def Pipeline.addSum (p : Pipeline) (name path : String) : Option Pipeline :=
  let seen := name ++ "__nonnull"
  if Json.hasMember seen p.group then none
  else
    let test := Json.single "$gt" (.array [.string ("$" ++ seen), .int 0])
    Pipeline.add { p with group := Json.insert seen (nonNullCount path) p.group } name
      (.single "$sum" (.string path))
      (.single "$cond" (.array [test, .string ("$" ++ name), .null]))

/-- Add a call under an output name. -/
def Pipeline.addCall (p : Pipeline) (ctx : PushContext) (c : AggCall) (name : String) :
    Option Pipeline := do
  if c.distinct || c.filter.isSome then
    none
  else
    let output := Json.string ("$" ++ name)
    match c.kind, c.args with
    | .count, [] => p.add name (.single "$sum" (.int 1)) output
    | .count, [i] => p.add name (nonNullCount (← path? ctx i)) output
    | .sum, [i] => p.addSum name (← path? ctx i)
    | .min, [i] => p.add name (.single "$min" (.string (← path? ctx i))) output
    | .max, [i] => p.add name (.single "$max" (.string (← path? ctx i))) output
    | .avg, [i] => p.add name (.single "$avg" (.string (← path? ctx i))) output
    | _, _ => none

def Pipeline.addCalls (ctx : PushContext) (p : Pipeline) :
    List (AggCall × String) → Option Pipeline
  | [] => some p
  | (c, name) :: rest => do
    let p ← p.addCall ctx c name
    addCalls ctx p rest

/-- The keys' parts of the group identifier and their outputs. -/
def keyMembers (ctx : PushContext) : List (Nat × String) → Option (Json.Members × Json.Members)
  | [] => some ([], [])
  | (i, name) :: rest => do
    let path ← path? ctx i
    let (id, project) ← keyMembers ctx rest
    some ((name, .string path) :: id, (name, .string ("$_id." ++ name)) :: project)

/-- The group identifier and the output fields of the keys.  Without keys there
    would be no group over no input, where an aggregate still has one row. -/
def keys (ctx : PushContext) : List (Nat × String) → Option Pipeline
  | [] => none
  | [(i, name)] => do
    let path ← path? ctx i
    some ⟨[("_id", .string path)], [(name, .string "$_id")]⟩
  | members => do
    let (id, project) ← keyMembers ctx members
    some ⟨[("_id", .ofMembers id)],
      project.foldl (fun m (n, v) => Json.insert n v m) []⟩

def aggregate (a : Aggregation) (names : List String) (ctx : PushContext) : Option Fragment := do
  let keyList := a.key.toList
  if a.sets ≠ [a.key] || names.length ≠ keyList.length + a.calls.length then
    none
  else
    let p ← keys ctx (keyList.zip names)
    let p ← p.addCalls ctx (a.calls.zip (names.drop keyList.length))
    let project := Json.insert "_id" (.int 0) p.project
    some
      { backend := .document
        clause := .aggregate
        body := .json (.array
          [.single "$group" (.object p.group), .single "$project" (.object project)]) }

/-! ### Sorts -/

/-- The direction of a sort key, where the store's placing of nulls, which come
    lowest, is the one wanted. -/
def direction? (c : FieldCollation) : Option Json :=
  match c.direction, c.nulls with
  | .ascending, .first => some (.int 1)
  | .descending, .last => some (.int (-1))
  | _, _ => none

/-- The members of a `$sort` stage. -/
def sortKeys (ctx : PushContext) : Collation → Option Json.Members
  | [] => some []
  | c :: rest => do
    let direction ← direction? c
    let name ← ctx.name? c.field
    some ((name, direction) :: (← sortKeys ctx rest))

def sort (o : Ordered) (ctx : PushContext) : Option Fragment := do
  let keys ← sortKeys ctx o.collation
  let order := if keys.isEmpty then [] else [Json.single "$sort" (.ofMembers keys)]
  let skip := o.offset.toList.map fun n => Json.single "$skip" (.nat n)
  let limit := o.fetch.toList.map fun n => Json.single "$limit" (.nat n)
  some
    { backend := .document
      clause := .sort
      body := .json (.array (order ++ skip ++ limit)) }

def dialect : Dialect :=
  { support, scan, filter, project := some project, aggregate := some aggregate,
    sort := some sort }

end Polystore.Document
