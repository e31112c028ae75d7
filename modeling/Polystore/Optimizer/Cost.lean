import Polystore.Config
import Polystore.Expr.Branches
import Polystore.Optimizer.Quantity
import Polystore.Plan.Node

/-
  Polystore/Optimizer/Cost.lean
  =============================
  **The cost model.**  A node's output is estimated from its inputs' outputs, and
  its cost from both: rows produced, work done, data read.  The three parts are
  weighed into one number by the settings.  Work inside a store is scaled by a
  factor of the store's backend.  No formula gets smaller when the input grows or
  when an aggregate gets another call.
-/

namespace Polystore

/-- The cost of producing rows. -/
structure Cost (α : Type) where
  rows : α
  cpu : α
  io : α

namespace Cost

variable {α : Type} [Quantity α]

def zero : Cost α := ⟨0.0, 0.0, 0.0⟩

def add (a b : Cost α) : Cost α := ⟨a.rows + b.rows, a.cpu + b.cpu, a.io + b.io⟩

instance : Add (Cost α) := ⟨add⟩

/-- Every part times a factor. -/
def scaled (c : Cost α) (factor : α) : Cost α :=
  ⟨c.rows * factor, c.cpu * factor, c.io * factor⟩

/-- The weighted total, by which costs are compared. -/
def value (c : Cost α) (s : CostSettings) : α :=
  c.rows + c.cpu * Quantity.ofFloat s.cpuWeight + c.io * Quantity.ofFloat s.ioWeight

/-- The parts with two places each. -/
def text (c : Cost Float) : String :=
  "\x7b" ++ Number.fixedPlaces 2 c.rows ++ " rows, " ++ Number.fixedPlaces 2 c.cpu ++ " cpu, " ++
    Number.fixedPlaces 2 c.io ++ " io\x7d"

end Cost

section Formulas

variable {α : Type} [Quantity α]

/-! ### Output rows -/

/-- The fraction of rows on which one conjunct is taken to hold. -/
def conjunctSelectivity : Expr → α
  | .call .isNotNull _ _ => 0.9
  | .call (.compare .eq) _ _ => 0.15
  | .call (.compare _) _ _ => 0.5
  | _ => 0.25

/-- The fraction of rows on which a condition is taken to hold: the product over
    its conjuncts, from the left. -/
def selectivity (condition : Expr) : α :=
  condition.conjuncts.foldl (fun s c => s * conjunctSelectivity c) 1.0

/-- The groups that an aggregate is taken to form: a tenth of its input, but at
    least one and at most as many as there are rows. -/
def groupCount (input : α) : α :=
  Quantity.smaller (Quantity.larger (input * 0.1) 1.0) (Quantity.larger input 1.0)

/-- The output of an aggregate.  Without a key every set has one group. -/
def aggregateRows (a : Aggregation) (input : α) : α :=
  let sets := Quantity.ofNat (max a.sets.length 1)
  if a.key.isEmpty then sets else groupCount input * sets

/-- The rows that are left in a window. -/
def windowRows (o : Ordered) (input : α) : α :=
  let rest := Quantity.larger (input - Quantity.ofNat (o.offset.getD 0)) 0.0
  match o.fetch with
  | some n => Quantity.smaller rest (Quantity.ofNat n)
  | none => rest

/-- The output of an operator from the output of its input. -/
def outputRows (op : RelOp) (input default : α) : α :=
  match op with
  | .scan t => (t.rows.map Quantity.ofFloat).getD default
  | .filter _ condition => input * selectivity condition
  | .project .. | .converter .. => input
  | .aggregate _ a => aggregateRows a input
  | .sort _ o => windowRows o input
  | .values tuples => Quantity.ofNat tuples.length
  | .modify .. => 1.0

/-- The estimated output of a node.  `default` stands in for what is not known. -/
def estimateRows (n : Node) (inputRows : List α) (default : α) : α :=
  outputRows n.op (inputRows.headD default) default

/-! ### Costs -/

/-- The work of an aggregate for each row: an eighth more for each call, and a
    little more for sums, which decides between aggregates that cost the same. -/
def aggregateFactor (calls sums : Nat) : α :=
  1.0 + 0.125 * Quantity.ofNat calls + 0.0125 * Quantity.ofNat sums

/-- The number of sums among the calls. -/
def sumCalls (calls : List AggCall) : Nat := calls.countP (·.kind = .sum)

/-- The work of putting `n` rows in order. -/
def sortWork (n : α) : α := n * Quantity.log2 (Quantity.larger n 2.0)

/-- The cost of an operator that takes `input` rows and gives `rows`. -/
def operatorCost (op : RelOp) (input rows : α) : Cost α :=
  match op with
  | .scan _ => ⟨rows, rows, rows⟩
  | .filter .. | .project .. => ⟨rows, input, 0.0⟩
  | .converter .. => Cost.scaled ⟨rows, input, 0.0⟩ 0.1
  | .aggregate _ a =>
    ⟨rows, input * aggregateFactor a.calls.length (sumCalls a.calls), 0.0⟩
  | .sort _ o => ⟨rows, if o.collation.isEmpty then rows else sortWork input, 0.0⟩
  | .values _ => ⟨rows, rows, 0.0⟩
  | .modify .. => ⟨1.0, input, input⟩

/-- The cost of a node without its inputs. -/
def selfCost (s : CostSettings) (n : Node) (inputRows : List α) (rows : α) : Cost α :=
  let cost := operatorCost n.op (inputRows.headD 0.0) rows
  match n.convention with
  | .store b _ => cost.scaled (Quantity.ofFloat (s.multiplier b.name))
  | _ => cost

end Formulas

end Polystore
