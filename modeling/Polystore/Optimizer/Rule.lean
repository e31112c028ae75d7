import Polystore.Optimizer.Pattern

/-
  Polystore/Optimizer/Rule.lean
  =============================
  **Rules.**  A rule has a pattern and an action, which runs once for each match.
  The action changes no node: it builds new ones and enters them, either as
  helpers in groups of their own or as equivalents of the matched root.  An
  equivalent has to produce rows of the same shape as the root.
-/

namespace Polystore

/-- One run of a rule's action. -/
structure Firing where
  memo : Memo Float
  /-- The matched nodes, parents first. -/
  matched : List NodeId
  /-- The nodes entered so far, in order. -/
  produced : List NodeId := []

/-- What an action does: it reads and enters nodes, and it may fail. -/
abbrev Action := StateT Firing (Except Error)

namespace Action

def outOfRange (i nodes : Nat) : Error :=
  ⟨.internal, "binding " ++ Number.natText i ++ " out of range (" ++ Number.natText nodes ++
    " nodes matched)"⟩

def wrongShape (n root : Node) : Error :=
  ⟨.internal, "rule output " ++ n.label ++ " does not match the row type of " ++ root.label⟩

/-- The number of the matched node at a position. -/
def matchedId (i : Nat) : Action NodeId := do
  let f ← get
  (require (outOfRange i f.matched.length) f.matched[i]? : Except Error NodeId)

/-- A node of the memo. -/
def node (id : NodeId) : Action Node := do
  ((← get).memo.node id : Except Error Node)

/-- The matched node at a position. -/
def matchedNode (i : Nat) : Action Node := do node (← matchedId i)

def enter (n : Node) (target : Option GroupId) : Action NodeId := do
  let f ← get
  let (id, memo) ← (f.memo.insert n target : Except Error (NodeId × Memo Float))
  set { f with memo, produced := f.produced ++ [id] }
  return id

/-- Enter a helper, such as a new input of an equivalent. -/
def register (n : Node) : Action NodeId := enter n none

/-- Enter an equivalent of the matched root. -/
def transformTo (n : Node) : Action NodeId := do
  let id ← matchedId 0
  let root ← node id
  (ensure (n.row.sameShape root.row) (wrongShape n root) : Except Error Unit)
  let group ← ((← get).memo.groupOf id : Except Error GroupId)
  enter n (some group)

end Action

structure Rule where
  /-- Unique among the rules of one convention. -/
  name : String
  description : String := "No description available"
  pattern : Pattern
  action : Action Unit

end Polystore
