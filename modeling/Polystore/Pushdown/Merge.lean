import Polystore.Pushdown.Term

/-
  Polystore/Pushdown/Merge.lean
  =============================
  **Merging the terms of one field.**  A backend sees at most one equality, one
  bound in each direction, one test for `NULL` and one pattern a field.  Of two
  bounds the stronger is kept, an equality takes the place of bounds that it
  implies, and a term that can neither be kept nor dropped is left for local
  evaluation.  Each kept term remembers the conjunct from which it came.
-/

namespace Polystore

/-- Something and the conjunct from which it came. -/
abbrev From (α : Type) := α × Expr

structure FieldTerms where
  eq : Option (From TermValue) := none
  lower : Option (From Bound) := none
  upper : Option (From Bound) := none
  notEq : List (From TermValue) := []
  /-- A test for `NULL`, and whether it has to succeed. -/
  isNull : Option (From Bool) := none
  like : Option (From String) := none

namespace FieldTerms

/-- Whether the new bound is tighter than the old one; nothing if that is not
    known yet. -/
def isStronger? (isLower : Bool) (old new : Bound) : Option Bool :=
  (new.value.compare? old.value).map fun o =>
    match o with
    | .eq => !new.inclusive && old.inclusive
    | .gt => isLower
    | .lt => !isLower

/-- Whether equality with a value implies a bound. -/
def implies (isLower : Bool) (value : TermValue) (bound : Bound) : Bool :=
  match value.compare? bound.value with
  | some .eq => bound.inclusive
  | some .gt => isLower
  | some .lt => !isLower
  | none => false

/-- Keep the stronger of two bounds.  Gives the bound kept and what is left for
    local evaluation. -/
def mergeBound (isLower : Bool) (old : Option (From Bound)) (new : Bound) (e : Expr) :
    Option (From Bound) × List Expr :=
  match old with
  | none => (some (new, e), [])
  | some (b, source) =>
    match isStronger? isLower b new with
    | some true => (some (new, e), [])
    | some false => (some (b, source), [])
    | none => (some (b, source), [e])

/-- Keep the first of several; an equal one is dropped, and another one is left
    for local evaluation. -/
def keepFirst {α : Type} [BEq α] (old : Option (From α)) (new : α) (e : Expr) :
    Option (From α) × List Expr :=
  match old with
  | none => (some (new, e), [])
  | some (a, source) => (some (a, source), if a == new then [] else [e])

/-- Take in a term of the field, which came from the conjunct `e`.  Gives also
    what is left for local evaluation. -/
def add (s : FieldTerms) (t : Term) (e : Expr) : FieldTerms × List Expr :=
  match t with
  | .eq _ v =>
    let (eq, left) := keepFirst s.eq v e
    ({ s with eq }, left)
  | .ne _ v =>
    (if s.notEq.any (·.1 == v) then s else { s with notEq := s.notEq ++ [(v, e)] }, [])
  | .range _ lower upper =>
    let (lower, left) :=
      match lower with
      | some b => mergeBound true s.lower b e
      | none => (s.lower, [])
    let (upper, left') :=
      match upper with
      | some b => mergeBound false s.upper b e
      | none => (s.upper, [])
    ({ s with lower, upper }, left ++ left')
  | .isNull _ =>
    let (isNull, left) := keepFirst s.isNull true e
    ({ s with isNull }, left)
  | .isNotNull _ =>
    let (isNull, left) := keepFirst s.isNull false e
    ({ s with isNull }, left)
  | .like _ p =>
    let (like, left) := keepFirst s.like p e
    ({ s with like }, left)

/-- A bound that the equality does not imply is left for local evaluation. -/
def leftover (isLower : Bool) (value : TermValue) : Option (From Bound) → List Expr
  | some (b, e) => if implies isLower value b then [] else [e]
  | none => []

/-- The terms for the backend, each with the conjuncts from which it came. -/
def kept (s : FieldTerms) (field : Nat) : List (Term × List Expr) :=
  let main : List (Term × List Expr) :=
    match s.eq with
    | some (v, e) => [(.eq field v, [e])]
    | none =>
      (if s.lower.isSome || s.upper.isSome then
        [(.range field (s.lower.map (·.1)) (s.upper.map (·.1)),
          (s.lower.map (·.2)).toList ++ (s.upper.map (·.2)).toList)]
       else []) ++
      (match s.isNull with
        | some (true, e) => [(.isNull field, [e])]
        | some (false, e) => [(.isNotNull field, [e])]
        | none => [])
  main ++ s.notEq.map (fun (v, e) => (.ne field v, [e])) ++
    s.like.toList.map fun (p, e) => (.like field p, [e])

/-- What an equality on the field leaves for local evaluation: bounds that it
    does not imply, and a test that the field is `NULL`. -/
def residual (s : FieldTerms) : List Expr :=
  match s.eq with
  | none => []
  | some (v, _) =>
    leftover true v s.lower ++ leftover false v s.upper ++
      (match s.isNull with
        | some (true, e) => [e]
        | _ => [])

end FieldTerms

/-- The terms of several fields, in ascending order of fields. -/
abbrev TermTable := List (Nat × FieldTerms)

def TermTable.add (t : Term) (e : Expr) : TermTable → TermTable × List Expr
  | [] =>
    let (s, left) := FieldTerms.add {} t e
    ([(t.field, s)], left)
  | (i, s) :: rest =>
    if t.field = i then
      let (s, left) := s.add t e
      ((i, s) :: rest, left)
    else if t.field < i then
      let (s', left) := FieldTerms.add {} t e
      ((t.field, s') :: (i, s) :: rest, left)
    else
      let (rest, left) := TermTable.add t e rest
      ((i, s) :: rest, left)

end Polystore
