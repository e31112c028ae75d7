import Polystore.Pushdown.Dialect

/-
  Polystore/Pushdown/Search.lean
  ==============================
  **Search indexes.**  A filter becomes a `bool` query: clauses that must match
  and clauses that must not, and a `should` over several branches.  A clause on a
  field does not match a document without it, so `must_not` alone would keep such
  documents; a comparison with `<>` therefore also asks for the field.
-/

namespace Polystore.Search

def support : FilterSupport := ⟨.search, true, true, true, false⟩

def scan (ctx : PushContext) : Fragment :=
  { backend := .search
    clause := .scan
    body := .json (.single "index" (.string ctx.tableName)) }

/-! ### Filters -/

/-- The clauses of a query. -/
structure Clauses where
  must : List Json := []
  mustNot : List Json := []

/-- The field has a value. -/
def presence (name : String) : Json := .single "exists" (.single "field" (.string name))

def match1 (name : String) (v : TermValue) : Json := .single "term" (.single name v.json)

namespace Clauses

def require (c : Clauses) (clause : Json) : Clauses := { c with must := c.must ++ [clause] }

def forbid (c : Clauses) (clause : Json) : Clauses := { c with mustNot := c.mustNot ++ [clause] }

/-- Ask for the field, once. -/
def requirePresence (c : Clauses) (name : String) : Clauses :=
  if c.must.contains (presence name) then c else c.require (presence name)

end Clauses

/-- One end of a range. -/
def bound (strict inclusive : String) (b : Option Bound) : Json.Members :=
  b.toList.map fun b => (if b.inclusive then inclusive else strict, b.value.json)

def addTerm (ctx : PushContext) (c : Clauses) (t : Term) : Clauses :=
  let name := ctx.name t.field
  match t with
  | .eq _ v => c.require (match1 name v)
  | .ne _ v => (c.forbid (match1 name v)).requirePresence name
  | .range _ lower upper =>
    c.require (.single "range" (.single name
      (.ofMembers (bound "gt" "gte" lower ++ bound "lt" "lte" upper))))
  | .isNull _ => c.forbid (presence name)
  | .isNotNull _ => c.requirePresence name
  | .like _ p =>
    c.require (.single "wildcard" (.single name (.single "value" (.string (likeWildcard p)))))

/-- Clauses under a name, unless there are none. -/
def section? (name : String) (clauses : List Json) : Json.Members :=
  if clauses.isEmpty then [] else [(name, .array clauses)]

/-- The query of one branch. -/
def branch (ctx : PushContext) (terms : List Term) : Json :=
  let c := terms.foldl (addTerm ctx) {}
  .single "bool" (.ofMembers (section? "must" c.must ++ section? "must_not" c.mustNot))

/-- The query of several branches. -/
def query (ctx : PushContext) : List (List Term) → Json
  | [terms] => branch ctx terms
  | branches =>
    .single "bool" (.ofMembers
      [("should", .array (branches.map (branch ctx))), ("minimum_should_match", .int 1)])

def filter (e : Expr) (ctx : PushContext) : Pushdown :=
  pushFilter e ctx support (fun _ => true) fun ctx branches => .json (query ctx branches)

/-! ### Projections -/

/-- The fields to return.  They cannot be renamed, so each has to be asked for
    under its own name. -/
def sources (ctx : PushContext) : List (Expr × String) → Option (List Json)
  | [] => some []
  | (e, name) :: rest => do
    let source ← ctx.name? (← e.asField?)
    if source = name then some (.string source :: (← sources ctx rest)) else none

def project (exprs : List Expr) (names : List String) (ctx : PushContext) : Option Fragment := do
  some
    { backend := .search
      clause := .project
      body := .json (.single "_source" (.array (← sources ctx (exprs.zip names)))) }

/-! ### Aggregates -/

/-- The metrics, and the names of the calls answered by a bucket's number of
    documents. -/
structure Metrics where
  metrics : Json.Members := []
  counts : List Json := []

/-- The metric of a function.  A sum over no values would be zero, so there is
    none for sums. -/
def metric? : AggKind → Option String
  | .count => some "value_count"
  | .min => some "min"
  | .max => some "max"
  | .avg => some "avg"
  | .sum => none

/-- Add a call under an output name. -/
def Metrics.addCall (ctx : PushContext) (m : Metrics) (c : AggCall) (name : String) :
    Option Metrics := do
  if c.distinct || c.filter.isSome then
    none
  else
    match c.kind, c.args with
    | .count, [] => some { m with counts := m.counts ++ [.string name] }
    | kind, [i] =>
      let metric ← metric? kind
      let field ← ctx.name? i
      some { m with
        metrics := Json.insert name (.single metric (.single "field" (.string field))) m.metrics }
    | _, _ => none

def Metrics.addCalls (ctx : PushContext) (m : Metrics) : List (AggCall × String) → Option Metrics
  | [] => some m
  | (c, name) :: rest => do
    let m ← m.addCall ctx c name
    addCalls ctx m rest

/-- The sources of a composite bucket. -/
def buckets (ctx : PushContext) : List (Nat × String) → Option (List Json)
  | [] => some []
  | (i, name) :: rest => do
    let field ← ctx.name? i
    some (.single name (.single "terms" (.single "field" (.string field))) ::
      (← buckets ctx rest))

/-- Without keys there is no bucket, and metrics over no input are not what an
    aggregate gives. -/
def aggregate (a : Aggregation) (names : List String) (ctx : PushContext) : Option Fragment := do
  let keyList := a.key.toList
  if a.sets ≠ [a.key] || keyList.isEmpty ||
      names.length ≠ keyList.length + a.calls.length then
    none
  else
    let m ← Metrics.addCalls ctx {} (a.calls.zip (names.drop keyList.length))
    let sources ← buckets ctx (keyList.zip names)
    let groups := ("composite", Json.single "sources" (.array sources)) ::
      (if m.metrics.isEmpty then [] else [("aggs", .object m.metrics)])
    let counts := if m.counts.isEmpty then [] else
      [("_meta", Json.single "doc_count" (.array m.counts))]
    some
      { backend := .search
        clause := .aggregate
        body := .json <| .ofMembers <|
          [("size", .int 0), ("aggs", .single "groups" (.ofMembers groups))] ++ counts }

def dialect : Dialect :=
  { support, scan, filter, project := some project, aggregate := some aggregate, sort := none }

end Polystore.Search
