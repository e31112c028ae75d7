import Polystore.Optimizer.Rule

/-
  Polystore/Optimizer/LogicalRules.lean
  =====================================
  **Rules without a store.**  Two rules improve logical plans: adjacent filters
  are merged, and the input of an aggregate is cut down to the fields it reads.
  Then there is a rule for every operator that hands it to the local engine, so
  that any plan can run even when no store takes any part of it.
-/

namespace Polystore

/-! ### Merging filters -/

namespace FilterMerge

/-- The conjuncts of the lower condition, then those of the upper one that are
    not among them. -/
def mergedConjuncts (lower upper : List Expr) : List Expr :=
  upper.foldl (fun merged c => if merged.contains c then merged else merged ++ [c]) lower

/-- One condition for two filters. -/
def mergedCondition (lower upper : Expr) : Expr :=
  Expr.allOf (mergedConjuncts lower.conjuncts upper.conjuncts)

/-- The filter that takes the place of `top` over `bottom`. -/
def merged? (top bottom : Node) : Option Node :=
  match top.op, bottom.op with
  | .filter _ upper, .filter input lower =>
    some ⟨.filter input (mergedCondition lower upper), top.traits, top.row, none⟩
  | _, _ => none

/-- A filter over a filter. -/
def pattern : Pattern :=
  { kind := some .filter
    convention := some .logical
    children := [{ kind := some .filter, convention := some .logical }] }

def rule : Rule :=
  { name := "FilterMergeRule"
    description := "Combines a filter over a filter into one filter"
    pattern
    action := do
      if let some n := merged? (← Action.matchedNode 0) (← Action.matchedNode 1) then
        discard <| Action.transformTo n }

end FilterMerge

/-! ### Trimming the input of an aggregate -/

namespace AggregateTrim

def dropped (i : Nat) (used : OrdinalSet) : Error :=
  ⟨.internal, "aggregate reads $" ++ Number.natText i ++ ", which the trimmed input " ++
    used.text ++ " drops"⟩

/-- The fields that an aggregate reads. -/
def usedFields (a : Aggregation) : OrdinalSet :=
  a.key.union (.ofList (a.calls.flatMap AggCall.inputRefs))

/-- The place of a field in the trimmed input. -/
def place (used : OrdinalSet) (i : Nat) : Except Error Nat :=
  require (dropped i used) (used.rank? i)

/-- A set of fields by their places in the trimmed input. -/
def placeSet (used set : OrdinalSet) : Except Error OrdinalSet := do
  return .ofList (← set.toList.mapM (place used))

/-- The projection to some fields of an input. -/
def projection (used : OrdinalSet) (input : NodeId) (row : RowType) : Except Error Node := do
  let exprs ← used.toList.mapM fun i => do return Expr.field i (← row.field i).type
  return ⟨.project input exprs, {}, ← row.project used.toList, none⟩

/-- The aggregate over the trimmed input. -/
def trimmed (used : OrdinalSet) (a : Aggregation) : Except Error Aggregation := do
  return {
    key := ← placeSet used a.key
    sets := ← a.sets.mapM (placeSet used)
    calls := ← a.calls.mapM (AggCall.remap (place used))
    indicator := a.indicator }

/-- An aggregate over anything but a projection; over a projection the rule would
    only stack up more of them. -/
def pattern : Pattern :=
  { kind := some .aggregate
    convention := some .logical
    children :=
      [{ convention := some .logical, guard := some fun n => n.kind ≠ .project }] }

/-- Put a projection below the aggregate unless it reads as many fields as there
    are. -/
def action : Action Unit := do
  let top ← Action.matchedNode 0
  let input ← Action.matchedId 1
  let row := (← Action.matchedNode 1).row
  if let .aggregate _ a := top.op then
    let used := usedFields a
    if used.card ≠ row.arity then
      let below ← Action.register (← (projection used input row : Except Error Node))
      let a ← (trimmed used a : Except Error Aggregation)
      discard <| Action.transformTo ⟨.aggregate below a, top.traits, top.row, none⟩

def rule : Rule :=
  { name := "AggregateInputTrimRule"
    description := "Projects away input fields an aggregate does not use"
    pattern
    action }

end AggregateTrim

/-! ### Running locally -/

namespace LocalEngine

/-- The operators of logical plans. -/
def operators : List RelKind := [.scan, .filter, .project, .aggregate, .sort, .values, .modify]

/-- Hand an operator to the local engine. -/
def rule (kind : RelKind) : Rule :=
  { name := "Enumerable" ++ kind.name ++ "Rule"
    description := "Implements a logical operator in process"
    pattern := { kind := some kind, convention := some .logical }
    action := do
      let n ← Action.matchedNode 0
      discard <| Action.transformTo (n.withConvention .enumerable) }

end LocalEngine

end Polystore
