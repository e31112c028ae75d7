import Polystore.Optimizer.LogicalRules
import Polystore.Optimizer.StoreRules
import Polystore.Text.Quoted

/-
  Polystore/Optimizer/Registry.lean
  =================================
  **The rules in force.**  Rules are listed in the order in which they were
  registered, each under the convention to whose rule set it belongs.  Within a
  rule set names are unique; a second rule of a name is not taken.
-/

namespace Polystore

/-- The rules in force. -/
structure Registry where
  rules : List (Convention × Rule) := []

namespace Registry

def size (r : Registry) : Nat := r.rules.length

def rulesFor (r : Registry) (c : Convention) : List Rule :=
  (r.rules.filter (·.1 = c)).map (·.2)

/-- Whether a convention has a rule of a name. -/
def has (r : Registry) (c : Convention) (name : String) : Bool :=
  (r.rulesFor c).any (·.name = name)

/-- Add a rule, unless its convention has one of that name. -/
def register (r : Registry) (c : Convention) (rule : Rule) : Registry :=
  if r.has c rule.name then r else ⟨r.rules ++ [(c, rule)]⟩

/-- The logical rules and those of the local engine. -/
def defaults : Registry :=
  let logical := (({} : Registry).register .logical FilterMerge.rule).register .logical
    AggregateTrim.rule
  LocalEngine.operators.foldl (fun r kind => r.register .enumerable (LocalEngine.rule kind)) logical

/-- Add the rules of a store. -/
def registerStore (r : Registry) (c : Catalog) (id : StoreId) (s : OptimizerSettings) :
    Except Error Registry := do
  let store ← c.store id
  return (StoreRules.ofStore c store s).foldl (·.register (.store store.backend store.name)) r

/-- Add the rules of every store. -/
def registerStores (r : Registry) (c : Catalog) (s : OptimizerSettings) :
    Except Error Registry :=
  c.stores.foldlM (fun r store => r.registerStore c store.id s) r

/-- Each rule with its convention. -/
def text (r : Registry) : String :=
  "[" ++ Text.commaList (r.rules.map fun (c, rule) =>
    Text.quoted (c.text ++ ":" ++ rule.name)) ++ "]"

end Registry

end Polystore
