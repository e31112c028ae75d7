import Polystore.Expr.Basic

/-
  Polystore/Expr/FieldComparison.lean
  ===================================
  **Comparisons of one field with one value.**  Backends evaluate comparisons
  between a field and a literal or parameter, so these are recognized in either
  order of the operands and normalized to have the field on the left.

  A cast around the field is looked through when the comparison without it is to
  have the same answer: the cast changes nothing, or it widens an integer to a
  double and the other side is a literal that is exactly an integer.  A literal
  double is held below `2 ^ 53` for this, but a literal integer is not.
-/

namespace Polystore

/-- A comparison `field op operand`, where the operand is a literal or a
    parameter. -/
structure FieldComparison where
  field : Nat
  op : Comparison
  operand : Expr

namespace FieldComparison

/-- Whether the expression has its value without reading the row. -/
def isValue : Expr → Bool
  | .literal .. | .param .. => true
  | _ => false

/-- The integer that a literal denotes exactly.  Below `2 ^ 53` every integer is
    a double. -/
def exactInteger? : Value → Option Int64
  | .bigint i => some i
  | .double x =>
    match (Number.parts x).whole? with
    | some i => if i.natAbs < Nat.pow 2 53 then some (Int64.ofInt i) else none
    | none => none
  | _ => none

/-- The field compared by `side`, and the operand as seen by the field without a
    cast. -/
def uncast? (side operand : Expr) : Option (Nat × Expr) :=
  match side with
  | .field i _ => some (i, operand)
  | .call .cast [.field i source] target =>
    if source = target then some (i, operand)
    else if source = .bigint ∧ target = .double then do
      let exact ← exactInteger? (← operand.asLiteral?)
      some (i, .lit (.bigint exact))
    else none
  | _ => none

/-- Recognize `field op operand`. -/
def direct? (op : Comparison) (side operand : Expr) : Option FieldComparison :=
  if isValue operand then (uncast? side operand).map fun (field, value) => ⟨field, op, value⟩
  else none

/-- Recognize `field op operand`, or `operand op field` with the comparison
    reversed. -/
def ofExpr? : Expr → Option FieldComparison
  | .call (.compare op) [left, right] _ =>
    direct? op left right <|> direct? op.reverse right left
  | _ => none

/-- Whether the operand is a parameter. -/
def isDynamic (c : FieldComparison) : Bool :=
  match c.operand with
  | .param .. => true
  | _ => false

end FieldComparison

end Polystore
