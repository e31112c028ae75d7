/-
  Polystore/Tree.lean
  ===================
  **Drawing trees.**  A labelled tree is drawn one node a line, parents before
  children, with branches in box characters: the last child of a node gets a
  corner, the others a tee, and the margin of a subtree continues the branch of
  those that have younger siblings.
-/

namespace Polystore

/-- A tree to draw. -/
inductive Tree where
  | node (name : String) (details : Option String) (children : List Tree)

namespace Tree

/-- A node's line: its name, with the details in parentheses. -/
def line (name : String) : Option String → String
  | none => name ++ "\n"
  | some details => name ++ " (" ++ details ++ ")\n"

/-- The subtree drawn below `margin`. -/
def drawBelow (margin : String) (isLast : Bool) : Tree → String
  | .node name details children =>
    margin ++ (if isLast then "└─ " else "├─ ") ++ line name details ++
      drawAll (margin ++ (if isLast then "   " else "│  ")) children
where
  drawAll (margin : String) : List Tree → String
    | [] => ""
    | child :: rest => drawBelow margin rest.isEmpty child ++ drawAll margin rest

/-- The whole tree. -/
def draw : Tree → String
  | .node name details children => line name details ++ drawBelow.drawAll "" children

end Tree

end Polystore
