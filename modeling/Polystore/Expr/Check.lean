import Polystore.Expr.Basic
import Polystore.RowType

/-
  Polystore/Expr/Check.lean
  =========================
  **Checking expressions against a row type.**  A field reference has to be
  inside the row with a type that fits the field's, and a call has to have the
  type its operator gives for the types of its operands, or one that this type
  can be converted to.  A cast may have any type.
-/

namespace Polystore

namespace Expr

def fieldType (index : Nat) (declared : DataType) (f : Field) : Error :=
  ⟨.type, "$" ++ Number.natText index ++ " is declared " ++ declared.name ++
    " but the input field '" ++ f.name ++ "' is " ++ f.type.name⟩

def operandTypes (op : Operator) (types : List DataType) : Error :=
  ⟨.type, "operator " ++ op.symbol ++ " cannot be applied to (" ++
    Text.commaList (types.map DataType.name) ++ ")"⟩

/-- Whether a call's declared type fits its operands. -/
def wellTyped (op : Operator) (types : List DataType) (declared : DataType) : Bool :=
  match op.resultType? types with
  | some t => t.coercesTo declared
  | none => false

/-- Check an expression against the row it will read; operands come before the
    calls they stand in. -/
def check (row : RowType) : Expr → Except Error Unit
  | literal .. | param .. => .ok ()
  | field i t => do
    let f ← row.field i
    ensure (f.type.coercesTo t || t.coercesTo f.type) (fieldType i t f)
  | call op operands t => do
    checkAll operands
    let types := operands.map Expr.type
    ensure (op = .cast || wellTyped op types t) (operandTypes op types)
where
  checkAll : List Expr → Except Error Unit
    | [] => .ok ()
    | e :: rest => do
      check row e
      checkAll rest

end Expr

end Polystore
