import Polystore.Expr.Branches
import Polystore.Fragment
import Polystore.Pushdown.Context
import Polystore.Pushdown.Merge

/-
  Polystore/Pushdown/Filter.lean
  ==============================
  **Splitting a filter.**  A condition is split into the part that a backend
  evaluates and a residual that is applied to the rows it returns.  Each branch
  of the condition is analysed on its own: conjuncts that are terms the backend
  accepts are merged field by field, the others are left over.  With a single
  branch the residual is what is left over; with several, a left-over conjunct
  means that the whole condition has to be applied again, because its branch was
  relaxed.
-/

namespace Polystore

/-- What a backend supports in filters. -/
structure FilterSupport where
  backend : Backend
  /-- Several branches. -/
  disjunction : Bool
  /-- A residual beside the native filter. -/
  residual : Bool
  /-- Parameters as placeholders. -/
  params : Bool
  /-- Whether the partition key has to be restricted by equality as a whole or
      not at all. -/
  keyCoverage : Bool

/-- A split condition. -/
structure FilterPlan where
  /-- The merged terms of each branch. -/
  branches : List (List Term)
  /-- The condition that the terms express. -/
  pushed : Expr
  /-- What is left for local evaluation. -/
  residual : Option Expr
  /-- The parameters that the terms read. -/
  params : OrdinalSet

/-- What becomes of a filter in one backend. -/
inductive Pushdown where
  /-- The backend evaluates the whole condition. -/
  | full (native : Fragment)
  /-- The backend evaluates `pushed`; the residual is applied to its rows. -/
  | split (native : Fragment) (pushed residual : Expr)
  /-- Nothing is pushed, for a reason. -/
  | refused (reason : String)

namespace Pushdown

def isFull : Pushdown → Bool
  | full _ => true
  | _ => false

def isRefused : Pushdown → Bool
  | refused _ => true
  | _ => false

def native? : Pushdown → Option Fragment
  | full f | split f _ _ => some f
  | refused _ => none

def residual? : Pushdown → Option Expr
  | split _ _ e => some e
  | _ => none

end Pushdown

namespace FilterPlan

/-! ### Reasons for refusal -/

def alwaysFalse : String := "condition is always false"

def noDisjunction : String := "backend does not support OR"

def noResidual : String := "backend cannot combine a native filter with a residual"

def nothingNative : String := "no conjunct can be evaluated natively"

def emptyBranch (i : Nat) : String :=
  "OR branch " ++ Number.natText i ++ " has no conjunct the backend can evaluate"

def missingKey (names : List String) : String :=
  "partition key only partially restricted; missing equality on " ++ Text.commaList names

/-! ### One branch -/

/-- An analysed branch. -/
structure Branch where
  terms : List Term
  /-- The conjuncts that the terms express. -/
  kept : List Expr
  residual : List Expr

/-- The term of a conjunct, if the backend can evaluate it. -/
def usable? (ctx : PushContext) (support : FilterSupport) (accept : Term → Bool) (e : Expr) :
    Option Term :=
  (Term.ofExpr? e).filter fun t =>
    (support.params || t.params.isEmpty) && (ctx.name? t.field).isSome && accept t

/-- Sort the conjuncts into the table of terms and the left-over ones. -/
def collect (usable? : Expr → Option Term) (table : TermTable) (left : List Expr) :
    List Expr → TermTable × List Expr
  | [] => (table, left)
  | e :: rest =>
    match usable? e with
    | some t =>
      let (table, more) := table.add t e
      collect usable? table (left ++ more) rest
    | none => collect usable? table (left ++ [e]) rest

def analyse (usable? : Expr → Option Term) (conjuncts : List Expr) : Branch :=
  let (table, left) := collect usable? [] [] conjuncts
  let kept := table.flatMap fun (i, s) => s.kept i
  { terms := kept.map (·.1)
    kept := kept.flatMap (·.2)
    residual := left ++ table.flatMap fun (_, s) => s.residual }

/-! ### The whole condition -/

/-- Refuse a condition that reads the partition key but leaves a part of it
    without an equality in some branch. -/
def checkKey (ctx : PushContext) (condition : Expr) : List (List Expr) → Except String Unit
  | [] => .ok ()
  | conjuncts :: rest =>
    if ctx.partitionKey.any condition.inputRefs.contains then
      let missing := ctx.partitionKey.filter fun i => !(pinnedFields conjuncts).contains i
      if missing.isEmpty then checkKey ctx condition rest
      else .error (missingKey (missing.map ctx.name))
    else .ok ()

/-- The number of the first branch without a term. -/
def firstEmpty? (branches : List Branch) : Option Nat :=
  branches.findIdx? (·.terms.isEmpty)

/-- What is left of a condition when its branches have been analysed. -/
def leftOver (condition : Expr) : List Branch → Option Expr
  | [b] => if b.residual.isEmpty then none else some (Expr.allOf b.residual)
  | bs => if bs.all (·.residual.isEmpty) then none else some condition

/-- Split a condition.  `accept` is the backend's veto on single terms; the error
    is the reason why nothing can be pushed. -/
def make (condition : Expr) (ctx : PushContext) (support : FilterSupport)
    (accept : Term → Bool) : Except String FilterPlan := do
  let parts := condition.branches
  if parts.isEmpty then
    throw alwaysFalse
  if 1 < parts.length ∧ !support.disjunction then
    throw noDisjunction
  if support.keyCoverage then
    checkKey ctx condition parts
  let branches := parts.map (analyse (usable? ctx support accept))
  if let some i := firstEmpty? branches then
    throw (if branches.length = 1 then nothingNative else emptyBranch i)
  let residual := leftOver condition branches
  if residual.isSome ∧ !support.residual then
    throw noResidual
  return {
    branches := branches.map (·.terms)
    pushed := Expr.anyOf (branches.map fun b => Expr.allOf b.kept)
    residual
    params := .ofList (branches.flatMap fun b => b.terms.flatMap Term.params) }

end FilterPlan

/-- Split a condition and write the terms in the backend's language. -/
def pushFilter (condition : Expr) (ctx : PushContext) (support : FilterSupport)
    (accept : Term → Bool) (render : PushContext → List (List Term) → FragmentBody) :
    Pushdown :=
  match FilterPlan.make condition ctx support accept with
  | .error reason => .refused reason
  | .ok plan =>
    let native : Fragment := ⟨support.backend, .filter, render ctx plan.branches, plan.params⟩
    match plan.residual with
    | none => .full native
    | some residual => .split native plan.pushed residual

end Polystore
