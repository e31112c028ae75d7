import Polystore.Optimizer.Memo

/-
  Polystore/Optimizer/Select.lean
  ===============================
  **Selection.**  For each group and each convention the cheapest member is
  picked whose inputs are available in the convention it takes them in.  Costs
  start from the leaves and are improved until no member of any group gets
  cheaper; groups may contain their own inputs, so this takes rounds, but no more
  than there are nodes.  Following the picks from the root gives the plan.
-/

namespace Polystore

/-- A group whose rows are wanted in a convention. -/
abbrev Demand := GroupId × Convention

/-- The pick for a demand. -/
structure Winner (α : Type) where
  node : NodeId
  /-- The cost of the node with all its inputs. -/
  cost : Cost α

/-- The picks so far. -/
abbrev Winners (α : Type) := Std.TreeMap Demand (Winner α) lexOrd.compare

namespace Winners

variable {α : Type} [Quantity α]

/-- The summed cost of picks for some groups in one convention, if there are
    any. -/
def inputsCost (w : Winners α) (c : Convention) (groups : List GroupId) : Option (Cost α) :=
  groups.foldlM (fun total g => do return total + (← w[(g, c)]?).cost) Cost.zero

/-- The cost of a member of a group on top of the picks for its inputs. -/
def memberCost (m : Memo α) (s : CostSettings) (w : Winners α) (g : GroupId) (id : NodeId) :
    Except Error (Option (Cost α)) := do
  let n ← m.node id
  let inputs ← m.inputGroups id
  return (w.inputsCost n.inputConvention inputs).map fun below =>
    below + selfCost s n (inputs.map m.rows) (m.rows g)

/-- Whether a cost is smaller than that of the pick so far. -/
def improves (s : CostSettings) (w : Winners α) (d : Demand) (cost : Cost α) : Bool :=
  match w[d]? with
  | some winner => Quantity.less (cost.value s) (winner.cost.value s)
  | none => true

/-- Consider a member of a group.  The flag says whether anything has improved. -/
def consider (m : Memo α) (s : CostSettings) (state : Winners α × Bool)
    (candidate : GroupId × NodeId) : Except Error (Winners α × Bool) := do
  let (w, improved) := state
  let (g, id) := candidate
  match ← w.memberCost m s g id with
  | none => return (w, improved)
  | some cost =>
    let d : Demand := (g, (← m.node id).convention)
    if w.improves s d cost then
      return (w.insert d ⟨id, cost⟩, true)
    else
      return (w, improved)

/-- All members of all live groups. -/
def candidates (m : Memo α) : List (GroupId × NodeId) :=
  m.liveGroups.flatMap fun g => (m.members g).map (g, ·)

/-- Consider all members over and over, at most so many times. -/
def improve (m : Memo α) (s : CostSettings) (w : Winners α) : Nat → Except Error (Winners α)
  | 0 => return w
  | rounds + 1 => do
    let (w, improved) ← (candidates m).foldlM (consider m s) (w, false)
    if improved then improve m s w rounds else return w

/-- The picks for all demands that can be met. -/
def select (m : Memo α) (s : CostSettings) : Except Error (Winners α) :=
  improve m s {} (m.size + 1)

end Winners

/-! ### Extraction -/

/-- A plan under extraction: its nodes, and where each demand is met. -/
structure Extraction where
  arena : Arena := {}
  met : Std.TreeMap Demand NodeId lexOrd.compare := {}

namespace Extraction

def cycle (d : Demand) : Error :=
  ⟨.internal, "cycle while extracting " ++ d.1.text ++ " in " ++ d.2.text⟩

def unmet (d : Demand) : Error :=
  ⟨.planning, d.1.text ++ " has no alternative in " ++ d.2.text⟩

/-- Extract the pick for a demand, down to a depth. -/
def extract {α : Type} (m : Memo α) (w : Winners α) :
    Nat → Demand → StateT Extraction (Except Error) NodeId
  | 0, d => do
    (require (cycle d) (← get).met[d]? : Except Error NodeId)
  | depth + 1, d => do
    match (← get).met[d]? with
    | some id => return id
    | none =>
      let winner ← (require (unmet d) w[d]? : Except Error (Winner α))
      let n ← (m.node winner.node : Except Error Node)
      let groups ← (m.inputGroups winner.node : Except Error (List GroupId))
      let inputs ← groups.mapM fun g => extract m w depth (g, n.inputConvention)
      let (id, arena) ← ((← get).arena.add (n.withInputs inputs) : Except Error (NodeId × Arena))
      modify fun e => ⟨arena, e.met.insert d id⟩
      return id

end Extraction

/-- The plan of the picks from a demand downwards.  A plan is not deeper than
    there are nodes unless the picks run in a circle. -/
def Winners.plan {α : Type} (w : Winners α) (m : Memo α) (d : Demand) : Except Error Plan := do
  let (root, e) ← (Extraction.extract m w (m.size + 1) d).run {}
  return ⟨e.arena, root⟩

end Polystore
