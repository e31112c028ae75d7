import Polystore.Pushdown.Dialect

/-
  Polystore/Pushdown/WideColumn.lean
  ==================================
  **Wide-column stores.**  A query names the partition it reads: every column of
  the partition key has to be restricted by an equality.  Only then may columns
  of the clustering key be restricted too, by equalities and ranges.  Queries are
  texts with quoted names.
-/

namespace Polystore.WideColumn

def support : FilterSupport := ⟨.wideColumn, false, true, true, true⟩

def scan (ctx : PushContext) : Fragment :=
  { backend := .wideColumn
    clause := .scan
    body := .plain <| "FROM " ++
      (match ctx.schema with
        | some keyspace => quoteName keyspace ++ "."
        | none => "") ++ quoteName ctx.tableName }

/-- Whether the condition sets every column of the partition key equal to a
    literal. -/
def keyPinned (e : Expr) (ctx : PushContext) : Bool :=
  match e.branches with
  | [conjuncts] => ctx.partitionKey.all (pinnedFields conjuncts).contains
  | _ => false

/-- The terms that the store can evaluate. -/
def accepts (ctx : PushContext) (pinned : Bool) (t : Term) : Bool :=
  if ctx.inPartitionKey t.field then t.isEquality
  else if ctx.inClusteringKey t.field then pinned && (t.isEquality || t.isRange)
  else false

/-- One end of a range on a quoted column. -/
def bound (column strict inclusive : String) (b : Option Bound) : List String :=
  b.toList.map fun b =>
    column ++ " " ++ (if b.inclusive then inclusive else strict) ++ " " ++ b.value.clauseText

def conditions (ctx : PushContext) (t : Term) : List String :=
  let column := quoteName (ctx.name t.field)
  match t with
  | .eq _ v => [column ++ " = " ++ v.clauseText]
  | .range _ lower upper => bound column ">" ">=" lower ++ bound column "<" "<=" upper
  | _ => []

/-- The text of a filter. -/
def clause (ctx : PushContext) (terms : List Term) : String :=
  String.intercalate " AND " (terms.flatMap (conditions ctx))

def filter (e : Expr) (ctx : PushContext) : Pushdown :=
  pushFilter e ctx support (accepts ctx (keyPinned e ctx)) fun ctx branches =>
    .plain (clause ctx branches.flatten)

/-- The selected columns, renamed where the output has another name. -/
def columns (ctx : PushContext) : List (Expr × String) → Option (List String)
  | [] => some []
  | (e, name) :: rest => do
    let source ← ctx.name? (← e.asField?)
    let column := if source = name then quoteName source
      else quoteName source ++ " AS " ++ quoteName name
    some (column :: (← columns ctx rest))

def project (exprs : List Expr) (names : List String) (ctx : PushContext) : Option Fragment := do
  some
    { backend := .wideColumn
      clause := .project
      body := .plain ("SELECT " ++ Text.commaList (← columns ctx (exprs.zip names))) }

def dialect : Dialect :=
  { support, scan, filter, project := some project, aggregate := none, sort := none }

end Polystore.WideColumn
