import Polystore.Optimizer.Cost
import Polystore.Plan.Basic
import Std.Data.TreeMap

/-
  Polystore/Optimizer/Memo.lean
  =============================
  **The memo.**  Alternatives of the same rows are collected in groups, and each
  node belongs to one group.  The input of a node stands for the whole group of
  that input, so an alternative found for a part of a plan is there for every
  node above it without copying any.  A node that is entered twice is kept once,
  and groups that turn out to share a node are merged into the older one.
-/

namespace Polystore

structure GroupId where
  n : Nat
deriving DecidableEq

namespace GroupId

def text (g : GroupId) : String := "g" ++ Number.natText g.n

instance : Ord GroupId := ⟨compareOn n⟩

instance : Std.TransOrd GroupId := inferInstanceAs (Std.TransCmp (compareOn n))

instance : Std.LawfulEqOrd GroupId where
  eq_of_compare h := congrArg mk (Std.LawfulEqOrd.eq_of_compare h)

end GroupId

/-- Alternatives of the same rows. -/
structure Group (α : Type) where
  /-- The nodes, in the order in which they came. -/
  members : List NodeId
  /-- The estimated number of rows. -/
  rows : α
  /-- The older group that took over the members. -/
  mergedInto : Option GroupId

/-- Groups of nodes. -/
structure Memo (α : Type) where
  arena : Arena := {}
  /-- The group in which each node was entered. -/
  homes : Array GroupId := #[]
  groups : Array (Group α) := #[]
  /-- The node entered under each digest. -/
  digests : Std.TreeMap String NodeId := {}
  /-- The estimate for tables without statistics. -/
  defaultRows : α
  /-- Grows with each new node and each merge. -/
  version : Nat := 0

namespace Memo

variable {α : Type}

def notInMemo (id : NodeId) : Error :=
  ⟨.internal, "node " ++ id.text ++ " is not in the memo"⟩

def inputMissing (input id : NodeId) : Error :=
  ⟨.internal, "input " ++ input.text ++ " precedes its parent " ++ id.text⟩

/-! ### Reading -/

def size (m : Memo α) : Nat := m.arena.size

def ids (m : Memo α) : List NodeId := m.arena.ids

def node (m : Memo α) (id : NodeId) : Except Error Node := m.arena.get id

/-- Follow at most so many merges. -/
def follow (m : Memo α) : Nat → GroupId → GroupId
  | 0, g => g
  | steps + 1, g =>
    match m.groups[g.n]?.bind (·.mergedInto) with
    | some older => follow m steps older
    | none => g

/-- The group that now holds the members of a group.  A group is merged into an
    older one only, so its number bounds the merges to follow. -/
def find (m : Memo α) (g : GroupId) : GroupId := m.follow g.n g

def groupOf (m : Memo α) (id : NodeId) : Except Error GroupId := do
  return m.find (← require (notInMemo id) m.homes[id.n]?)

/-- The nodes of a group; none if there is no such group. -/
def members (m : Memo α) (g : GroupId) : List NodeId :=
  (m.groups[(m.find g).n]?.map (·.members)).getD []

/-- The estimated rows of a group. -/
def rows (m : Memo α) (g : GroupId) : α :=
  (m.groups[(m.find g).n]?.map (·.rows)).getD m.defaultRows

/-- Whether a group has not been merged into another one. -/
def isLive (m : Memo α) (g : GroupId) : Bool :=
  (m.groups[g.n]?).any (·.mergedInto.isNone)

/-- The live groups, the oldest first. -/
def liveGroups (m : Memo α) : List GroupId :=
  ((List.range m.groups.size).map .mk).filter m.isLive

/-- The groups of a node's inputs. -/
def inputGroups (m : Memo α) (id : NodeId) : Except Error (List GroupId) := do
  (← m.node id).inputs.mapM m.groupOf

/-! ### Growing -/

/-- The text by which identical nodes are known: the node with its traits, its
    row type, and the groups of its inputs at the time. -/
def digest (m : Memo α) (n : Node) : Except Error String := do
  let inputs ← n.inputs.mapM m.groupOf
  return n.label ++ " " ++ n.row.text ++ "(" ++
    String.intercalate "," (inputs.map GroupId.text) ++ ")"

/-- Merge a younger group into an older one. -/
def absorb (m : Memo α) (older younger : GroupId) : Memo α :=
  let moved := m.members younger
  let grown := m.groups.modify older.n fun g => { g with members := g.members ++ moved }
  { m with
    groups := grown.modify younger.n fun g => { g with members := [], mergedInto := some older }
    version := m.version + 1 }

/-- Merge two groups; the older one survives. -/
def merge (m : Memo α) (a b : GroupId) : Memo α :=
  let a := m.find a
  let b := m.find b
  if a = b then m else if a.n < b.n then m.absorb a b else m.absorb b a

/-- Open an empty group. -/
def openGroup (m : Memo α) (rows : α) : GroupId × Memo α :=
  (⟨m.groups.size⟩, { m with groups := m.groups.push ⟨[], rows, none⟩ })

/-- Enter a new node into a group. -/
def enter (m : Memo α) (n : Node) (digest : String) (g : GroupId) :
    Except Error (NodeId × Memo α) := do
  let (id, arena) ← m.arena.add n
  return (id, { m with
    arena
    homes := m.homes.push g
    groups := m.groups.modify g.n fun g => { g with members := g.members ++ [id] }
    digests := m.digests.insert digest id
    version := m.version + 1 })

/-- Enter a node, or find the identical one.  With a `target` the node is said to
    be equivalent to that group: a new node joins it, and the group of a known
    node is merged with it.  Without a target a new node opens a group. -/
def insert [Quantity α] (m : Memo α) (n : Node) (target : Option GroupId) :
    Except Error (NodeId × Memo α) := do
  let digest ← m.digest n
  match m.digests[digest]?, target with
  | some known, some target =>
    let current ← m.groupOf known
    return (known, m.merge current (m.find target))
  | some known, none => return (known, m)
  | none, some target => m.enter n digest (m.find target)
  | none, none =>
    let inputs ← n.inputs.mapM m.groupOf
    let (g, m) := m.openGroup (estimateRows n (inputs.map m.rows) m.defaultRows)
    m.enter n digest g

/-! ### Growing in place -/

/-- Steps that change a memo and may fail.  What was written before a failure
    stays. -/
abbrev Writing (α : Type) := ExceptT Error (StateM (Memo α))

/-- Make a change that is written as a whole. -/
def write {β : Type} (change : Memo α → Except Error (β × Memo α)) : Writing α β := do
  let (b, m) ← change (← get)
  set m
  return b

/-- `insert` as it writes: the group of a new node is opened before the node is
    entered. -/
def insertInPlace [Quantity α] (n : Node) (target : Option GroupId) : Writing α NodeId := do
  let m ← get
  let digest ← m.digest n
  match m.digests[digest]?, target with
  | some known, some target =>
    let current ← m.groupOf known
    set (m.merge current (m.find target))
    return known
  | some known, none => return known
  | none, some target => write fun m => m.enter n digest (m.find target)
  | none, none =>
    let inputs ← (n.inputs.mapM m.groupOf : Except Error (List GroupId))
    let (g, opened) := m.openGroup (estimateRows n (inputs.map m.rows) m.defaultRows)
    set opened
    write fun m => m.enter n digest g

/-- The answer of an insertion, and the memo after it. -/
def attempt [Quantity α] (m : Memo α) (n : Node) (target : Option GroupId) :
    Except Error NodeId × Memo α :=
  (insertInPlace n target).run.run m

/-! ### From a plan -/

/-- Enter the nodes of a plan in order.  `copies` maps those already entered to
    their numbers in the memo. -/
def enterNodes [Quantity α] (arena : Arena) (m : Memo α) (copies : List (NodeId × NodeId)) :
    List NodeId → Except Error (Memo α × List (NodeId × NodeId))
  | [] => return (m, copies)
  | id :: rest => do
    let n ← arena.get id
    let inputs ← n.inputs.mapM fun i => require (inputMissing i id) (copies.lookup i)
    let (copy, m) ← m.insert (n.withInputs inputs) none
    enterNodes arena m ((id, copy) :: copies) rest

/-- A memo with the nodes of a plan, and the group of its root. -/
def ofPlan [Quantity α] (p : Plan) (defaultRows : α) : Except Error (Memo α × GroupId) := do
  let reachable ← p.preorder
  let ids := p.arena.ids.filter reachable.contains
  let (m, copies) ← enterNodes p.arena { defaultRows } [] ids
  let root ← require (notInMemo p.root) (copies.lookup p.root)
  return (m, ← m.groupOf root)

end Memo

end Polystore
