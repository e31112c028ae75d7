import Polystore.Plan.Node
import Polystore.Pushdown.Filter
import Polystore.Pushdown.Literal

/-
  Polystore/Pushdown/Dialect.lean
  ===============================
  **Dialects.**  What one backend can evaluate, and how it is said in the
  backend's query language: every backend reads tables and filters, and some also
  project, aggregate and sort.  A dialect may have nothing to say for an operator
  other than the reading of a table, and then the operator stays local.
-/

namespace Polystore

/-- How operators are said in the query language of one backend. -/
structure Dialect where
  support : FilterSupport
  scan : PushContext → Fragment
  filter : Expr → PushContext → Pushdown
  /-- Expressions with the names of the output fields. -/
  project : Option (List Expr → List String → PushContext → Option Fragment)
  /-- An aggregate with the names of its output fields. -/
  aggregate : Option (Aggregation → List String → PushContext → Option Fragment)
  sort : Option (Ordered → PushContext → Option Fragment)

end Polystore
