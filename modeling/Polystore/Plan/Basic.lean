import Polystore.Plan.Node
import Polystore.Tree

/-
  Polystore/Plan/Basic.lean
  =========================
  **Plans.**  Nodes are kept in an arena that only grows: a change of a plan
  appends nodes that point at older ones.  A node's inputs are always older than
  itself, so walking down from a node visits ever smaller numbers, and the number
  of the root bounds the depth of a plan.
-/

namespace Polystore

/-- The nodes of plans that share parts. -/
structure Arena where
  nodes : Array Node := #[]

namespace Arena

def noNode (id : NodeId) : Error :=
  ⟨.internal, "node " ++ id.text ++ " is not in the arena"⟩

def full : Error := ⟨.internal, "plan arena is full"⟩

/-- Node numbers have thirty-two bits. -/
def capacity : Nat := Nat.pow 2 32

def size (a : Arena) : Nat := a.nodes.size

def get (a : Arena) (id : NodeId) : Except Error Node :=
  require (noNode id) a.nodes[id.n]?

/-- Append a node whose inputs are in the arena. -/
def add (a : Arena) (n : Node) : Except Error (NodeId × Arena) := do
  for i in n.inputs do
    discard <| a.get i
  ensure (a.size < capacity) full
  return (⟨a.size⟩, ⟨a.nodes.push n⟩)

def ids (a : Arena) : List NodeId := (List.range a.size).map .mk

/-- The nodes below and including a node down to a depth, parents first. -/
def descend (a : Arena) : Nat → NodeId → Except Error (List NodeId)
  | 0, _ => return []
  | depth + 1, id => do
    let n ← a.get id
    return id :: (← n.inputs.mapM (descend a depth)).flatten

/-- The nodes of the plan below and including a node, parents first. -/
def preorder (a : Arena) (id : NodeId) : Except Error (List NodeId) :=
  a.descend (id.n + 1) id

/-- The tree below a node down to a depth. -/
def treeTo (a : Arena) : Nat → NodeId → Except Error Tree
  | 0, _ => return .node "" none []
  | depth + 1, id => do
    let n ← a.get id
    return .node n.kind.name (some n.details) (← n.inputs.mapM (treeTo a depth))

/-- The drawing of the plan below a node. -/
def explain (a : Arena) (id : NodeId) : Except Error String := do
  return (← a.treeTo (id.n + 1) id).draw

end Arena

/-- A plan: nodes and the one whose rows are the result. -/
structure Plan where
  arena : Arena
  root : NodeId

namespace Plan

def rootNode (p : Plan) : Except Error Node := p.arena.get p.root

def rowType (p : Plan) : Except Error RowType := do return (← p.rootNode).row

def explain (p : Plan) : Except Error String := p.arena.explain p.root

/-- The nodes of the plan, parents first. -/
def preorder (p : Plan) : Except Error (List NodeId) := p.arena.preorder p.root

/-- Whether some node of the plan passes a test. -/
def contains (p : Plan) (test : Node → Bool) : Except Error Bool := do
  return (← (← p.preorder).mapM p.arena.get).any test

end Plan

end Polystore
