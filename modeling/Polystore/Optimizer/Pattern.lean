import Polystore.Optimizer.Memo

/-
  Polystore/Optimizer/Pattern.lean
  ================================
  **Patterns.**  A pattern is a tree of tests on nodes.  It is matched at a node
  of the memo: the node has to pass the test at the root, and below it every
  member of an input's group is a candidate for the child pattern.  A pattern
  without children says nothing about the inputs.
-/

namespace Polystore

/-- A tree of tests on nodes. -/
structure Pattern where
  /-- The operator; any one if absent. -/
  kind : Option RelKind := none
  /-- The convention; any one if absent. -/
  convention : Option Convention := none
  /-- A further test. -/
  guard : Option (Node → Bool) := none
  /-- One pattern an input, or none. -/
  children : List Pattern := []

namespace Pattern

/-- The number of tests, which is the length of every match. -/
def size : Pattern → Nat
  | ⟨_, _, _, children⟩ => 1 + sizeAll children
where
  sizeAll : List Pattern → Nat
    | [] => 0
    | p :: rest => size p + sizeAll rest

/-- Whether a node passes the test at the root. -/
def accepts (p : Pattern) (n : Node) : Bool :=
  p.kind.all (· = n.kind) && p.convention.all (· = n.convention) && p.guard.all (· n)

/-- The matches at a node, each as the matched nodes, parents first. -/
def matchesAt {α : Type} (m : Memo α) : Pattern → NodeId → Except Error (List (List NodeId))
  | ⟨kind, convention, guard, children⟩, id => do
    let n ← m.node id
    if !accepts ⟨kind, convention, guard, children⟩ n then
      return []
    else if children.isEmpty then
      return [[id]]
    else if n.inputs.length ≠ children.length then
      return []
    else
      return (← matchesBelow m children n.inputs).map (id :: ·)
where
  /-- The matches of several patterns, each in the group of one input; the first
      varies slowest. -/
  matchesBelow {α : Type} (m : Memo α) :
      List Pattern → List NodeId → Except Error (List (List NodeId))
    | p :: patterns, input :: inputs => do
      let candidates := m.members (← m.groupOf input)
      let first := (← candidates.mapM fun c => matchesAt m p c).flatten
      let others ← matchesBelow m patterns inputs
      return first.flatMap fun f => others.map (f ++ ·)
    | _, _ => return [[]]

/-- The operator, the convention in brackets, a question mark for a further test,
    and the children. -/
def text : Pattern → String
  | ⟨kind, convention, guard, children⟩ =>
    (match kind with
      | some k => k.name
      | none => "any") ++
    (match convention with
      | some c => "[" ++ c.text ++ "]"
      | none => "") ++
    (if guard.isSome then "?" else "") ++
    (if children.isEmpty then "" else "(" ++ Text.commaList (texts children) ++ ")")
where
  texts : List Pattern → List String
    | [] => []
    | p :: rest => text p :: texts rest

end Pattern

end Polystore
