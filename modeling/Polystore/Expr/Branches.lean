import Polystore.Expr.Basic

/-
  Polystore/Expr/Branches.lean
  ============================
  **Branches of a condition.**  A condition is seen as a disjunction of branches,
  each a conjunction of conjuncts.  Only the connectives at the top are opened:
  nothing is distributed, so `recompose` puts an equivalent condition together
  again.
-/

namespace Polystore

namespace Expr

/-- Open nested calls of one connective. -/
def flatten (connective : Operator) : Expr → List Expr
  | call op operands t =>
    if op = connective then flattenAll operands else [call op operands t]
  | e => [e]
where
  flattenAll : List Expr → List Expr
    | [] => []
    | e :: rest => flatten connective e ++ flattenAll rest

/-- The conjuncts; `TRUE` has none. -/
def conjuncts (e : Expr) : List Expr := (e.flatten .and).filter (!·.isTrue)

/-- The disjuncts; `FALSE` has none. -/
def disjuncts (e : Expr) : List Expr := (e.flatten .or).filter (!·.isFalse)

/-- Join expressions with a connective: none give its unit, and a single one
    stands for itself. -/
def join (connective : Operator) (unit : Expr) : List Expr → Expr
  | [] => unit
  | [e] => e
  | es => apply connective es

/-- The conjunction; without conjuncts it is `TRUE`. -/
def allOf (es : List Expr) : Expr := join .and trueLit es

/-- The disjunction; without disjuncts it is `FALSE`. -/
def anyOf (es : List Expr) : Expr := join .or falseLit es

/-- The branches of a condition, each as its conjuncts. -/
def branches (e : Expr) : List (List Expr) := e.disjuncts.map conjuncts

/-- The condition with the given branches. -/
def recompose (bs : List (List Expr)) : Expr := anyOf (bs.map allOf)

end Expr

end Polystore
