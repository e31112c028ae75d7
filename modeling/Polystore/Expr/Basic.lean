import Polystore.Expr.Operator
import Polystore.OrdinalSet
import Polystore.Value

/-
  Polystore/Expr/Basic.lean
  =========================
  **Scalar expressions.**  An expression is evaluated against one row and a list
  of parameters.  Every node carries its type; `Expr.apply` infers the type of a
  call and falls back to `any` when the operands do not fit, which the check
  before planning refuses.
-/

namespace Polystore

inductive Expr where
  | literal (value : Value) (type : DataType)
  /-- The field of the input row at an ordinal. -/
  | field (index : Nat) (type : DataType)
  /-- A parameter that is bound when the query runs. -/
  | param (index : Nat) (type : DataType)
  | call (op : Operator) (operands : List Expr) (type : DataType)

instance : Inhabited Expr := ⟨.literal .null .null⟩

namespace Expr

def type : Expr → DataType
  | literal _ t | field _ t | param _ t | call _ _ t => t

/-- A literal typed by its value. -/
def lit (v : Value) : Expr := literal v v.dataType

def trueLit : Expr := lit (.bool true)

def falseLit : Expr := lit (.bool false)

def nullOf (t : DataType) : Expr := literal .null t

/-- A call with its type inferred. -/
def apply (op : Operator) (operands : List Expr) : Expr :=
  call op operands ((op.resultType? (operands.map type)).getD .any)

def castTo (e : Expr) (target : DataType) : Expr := call .cast [e] target

def asLiteral? : Expr → Option Value
  | literal v _ => some v
  | _ => none

def asField? : Expr → Option Nat
  | field i _ => some i
  | _ => none

/-- Whether this is the literal `TRUE`. -/
def isTrue : Expr → Bool
  | literal (.bool b) _ => b
  | _ => false

/-- Whether this is the literal `FALSE`. -/
def isFalse : Expr → Bool
  | literal (.bool b) _ => !b
  | _ => false

/-- Equality of expressions, types included.  Doubles compare as numbers. -/
protected def beq : Expr → Expr → Bool
  | literal v t, literal w u => v == w && t = u
  | field i t, field j u => i = j && t = u
  | param i t, param j u => i = j && t = u
  | call o xs t, call p ys u => o = p && beqAll xs ys && t = u
  | _, _ => false
where
  beqAll : List Expr → List Expr → Bool
    | [], [] => true
    | x :: xs, y :: ys => Expr.beq x y && beqAll xs ys
    | _, _ => false

instance : BEq Expr := ⟨Expr.beq⟩

/-- The ordinals of the fields read, in the order in which they occur. -/
def fieldList : Expr → List Nat
  | literal .. | param .. => []
  | field i _ => [i]
  | call _ operands _ => fieldLists operands
where
  fieldLists : List Expr → List Nat
    | [] => []
    | e :: rest => fieldList e ++ fieldLists rest

/-- The ordinals of the parameters read, in the order in which they occur. -/
def paramList : Expr → List Nat
  | literal .. | field .. => []
  | param i _ => [i]
  | call _ operands _ => paramLists operands
where
  paramLists : List Expr → List Nat
    | [] => []
    | e :: rest => paramList e ++ paramLists rest

/-- The fields of the input row that the expression reads. -/
def inputRefs (e : Expr) : OrdinalSet := .ofList e.fieldList

/-- The parameters that the expression reads. -/
def params (e : Expr) : OrdinalSet := .ofList e.paramList

/-- The expression with every field reference replaced. -/
def remap (f : Nat → Nat) : Expr → Expr
  | field i t => field (f i) t
  | call op operands t => call op (remapAll operands) t
  | literal v t => literal v t
  | param i t => param i t
where
  remapAll : List Expr → List Expr
    | [] => []
    | e :: rest => remap f e :: remapAll rest

/-- Ordinals are 64-bit words: moving one stops at both ends. -/
def shiftOrdinal (offset : Int) (i : Nat) : Nat := min (i + offset).toNat (Nat.pow 2 64 - 1)

/-- The expression with every field reference moved by `offset`. -/
def shift (offset : Int) (e : Expr) : Expr := e.remap (shiftOrdinal offset)

/-- The text: operators before their operands, fields as `$i` and parameters as
    `?i`.  A cast shows its first operand and its type. -/
def text : Expr → String
  | literal v _ => v.text
  | field i _ => "$" ++ Number.natText i
  | param i _ => "?" ++ Number.natText i
  | call .cast operands t => "CAST(" ++ firstText operands ++ "):" ++ t.name
  | call op operands _ => op.symbol ++ "(" ++ Text.commaList (texts operands) ++ ")"
where
  texts : List Expr → List String
    | [] => []
    | e :: rest => text e :: texts rest
  firstText : List Expr → String
    | [] => ""
    | e :: _ => text e

end Expr

end Polystore
