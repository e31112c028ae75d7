import Polystore.Pushdown.Dialect

/-
  Polystore/Pushdown/File.lean
  ============================
  **File stores.**  A row is a file whose path spells out its primary key, so the
  only conditions a store can evaluate are equalities of key columns with
  constants: they narrow down the path.
-/

namespace Polystore.File

def support : FilterSupport := ⟨.file, false, true, false, false⟩

def scan (ctx : PushContext) : Fragment :=
  { backend := .file
    clause := .scan
    body := .plain <|
      (match ctx.schema with
        | some directory => directory ++ "/"
        | none => "") ++ ctx.tableName }

/-- The part of a path that a term fixes. -/
def segment? (ctx : PushContext) : Term → Option String
  | .eq i v => some (ctx.name i ++ "=" ++ v.clauseText)
  | _ => none

/-- The path that some terms fix. -/
def path (ctx : PushContext) (terms : List Term) : String :=
  String.intercalate "/" (terms.filterMap (segment? ctx))

def filter (e : Expr) (ctx : PushContext) : Pushdown :=
  pushFilter e ctx support (fun t => ctx.inPrimaryKey t.field && t.isEquality)
    fun ctx branches => .plain (path ctx branches.flatten)

def dialect : Dialect :=
  { support, scan, filter, project := none, aggregate := none, sort := none }

end Polystore.File
