import Polystore.Optimizer.Explore
import Polystore.Optimizer.Select

/-
  Polystore/Optimizer/Optimize.lean
  =================================
  **Optimizing a plan.**  The plan is entered into a memo, the rules in force
  fill the memo with alternatives, and the cheapest plan that delivers the root's
  rows to the local engine is taken out.
-/

namespace Polystore

/-- An optimized plan and how it was found. -/
structure Optimized where
  plan : Plan
  cost : Cost Float
  ending : Ending
  rounds : Nat
  firings : Nat
  trace : List TraceEntry

namespace Optimized

/-- A run of a rule that changed something, with its number. -/
def entryText (e : TraceEntry) (i : Nat) : String :=
  "\n--- Rule " ++ Number.natText (i + 1) ++ " fired: " ++ e.rule ++ " ---\nMatched: " ++
    e.matched ++ "\n" ++ String.join (e.produced.map fun p => "Produced: " ++ p ++ "\n")

/-- An account of the search. -/
def summary (o : Optimized) : String :=
  "Optimization completed in " ++ Number.natText o.rounds ++ " iterations, " ++
    Number.natText o.firings ++ " rules fired, cost " ++ o.cost.text ++ "\n" ++
    (if o.trace.isEmpty then "  (no trace available)\n"
     else String.join ((o.trace.filter (·.changed)).mapIdx fun i e => entryText e i))

end Optimized

def notExecutable (c : Convention) : Error :=
  ⟨.planning, "no alternative of the root is executable in " ++ c.text⟩

/-- The cheapest plan for the rows of a plan. -/
def Plan.optimize (p : Plan) (r : Registry) (s : OptimizerSettings) (cost : CostSettings) :
    Except Error Optimized := do
  let (m, root) ← Memo.ofPlan p cost.defaultRowCount
  let (ending, e) ← m.explore r s
  let winners ← Winners.select e.memo cost
  let d : Demand := (e.memo.find root, .enumerable)
  let best ← require (notExecutable .enumerable) winners[d]?
  return {
    plan := ← winners.plan e.memo d
    cost := best.cost
    ending
    rounds := e.rounds
    firings := e.firings
    trace := e.trace.toList }

end Polystore
