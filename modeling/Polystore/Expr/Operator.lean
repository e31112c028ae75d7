import Polystore.DataType

/-
  Polystore/Expr/Operator.lean
  ============================
  **Operators of scalar expressions.**  The six comparisons and the four
  arithmetic operators are families of their own, because a comparison can be
  reversed and negated and an arithmetic operator has a function on numbers.
  `resultType?` is the typing rule: the type of a call from the types of its
  operands, or nothing when they do not fit.
-/

namespace Polystore

/-- A binary comparison. -/
inductive Comparison where
  | eq
  | ne
  | lt
  | le
  | gt
  | ge
deriving DecidableEq, Repr

/-- A binary operator on numbers. -/
inductive Arithmetic where
  | plus
  | minus
  | times
  | divide
deriving DecidableEq, Repr

inductive Operator where
  | compare (c : Comparison)
  /-- Conjunction of any number of operands, with three truth values. -/
  | and
  /-- Disjunction of any number of operands, with three truth values. -/
  | or
  | not
  | isNull
  | isNotNull
  | arith (a : Arithmetic)
  | like
  /-- Conversion to the type of the call. -/
  | cast
deriving DecidableEq, Repr

namespace Comparison

def symbol : Comparison → String
  | eq => "="
  | ne => "<>"
  | lt => "<"
  | le => "<="
  | gt => ">"
  | ge => ">="

/-- The comparison with the same answer on swapped operands: `5 < x` is
    `x > 5`. -/
def reverse : Comparison → Comparison
  | eq => eq
  | ne => ne
  | lt => gt
  | le => ge
  | gt => lt
  | ge => le

/-- The comparison with the opposite answer. -/
def negate : Comparison → Comparison
  | eq => ne
  | ne => eq
  | lt => ge
  | le => gt
  | gt => le
  | ge => lt

/-- Whether the comparison holds of operands in the given order. -/
def holds : Comparison → Ordering → Bool
  | eq, o => o == .eq
  | ne, o => o != .eq
  | lt, o => o == .lt
  | le, o => o != .gt
  | gt, o => o == .gt
  | ge, o => o != .lt

theorem holds_reverse (c : Comparison) (o : Ordering) :
    c.reverse.holds o.swap = c.holds o := by cases c <;> cases o <;> rfl

theorem holds_negate (c : Comparison) (o : Ordering) :
    c.negate.holds o = !c.holds o := by cases c <;> cases o <;> rfl

theorem reverse_reverse (c : Comparison) : c.reverse.reverse = c := by cases c <;> rfl

end Comparison

def Arithmetic.symbol : Arithmetic → String
  | plus => "+"
  | minus => "-"
  | times => "*"
  | divide => "/"

namespace Operator

/-- The spelling in expression texts. -/
def symbol : Operator → String
  | compare c => c.symbol
  | and => "AND"
  | or => "OR"
  | not => "NOT"
  | isNull => "IS NULL"
  | isNotNull => "IS NOT NULL"
  | arith a => a.symbol
  | like => "LIKE"
  | cast => "CAST"

def isComparison : Operator → Bool
  | compare _ => true
  | _ => false

def isArithmetic : Operator → Bool
  | arith _ => true
  | _ => false

/-- Whether the operator connects truth values. -/
def isLogical : Operator → Bool
  | and | or | not => true
  | _ => false

/-- See `Comparison.reverse`. -/
def reverse? : Operator → Option Operator
  | compare c => some (compare c.reverse)
  | _ => none

/-- The operator with the opposite answer on operands that are not `NULL`. -/
def negate? : Operator → Option Operator
  | compare c => some (compare c.negate)
  | isNull => some isNotNull
  | isNotNull => some isNull
  | _ => none

/-- Whether a type can hold truth values. -/
def fitsBool (t : DataType) : Bool := t = .bool || t.isUnknown

/-- Whether a type can hold texts. -/
def fitsString (t : DataType) : Bool := t = .string || t.isUnknown

/-- The type of an arithmetic call whose operands have the supertype `t`. -/
def arithmeticType? (t : DataType) : Option DataType :=
  if t.isNumeric then some t
  else if t.isUnknown then some .double
  else none

/-- The type of a call from the types of its operands.  A cast says its type
    itself. -/
def resultType? : Operator → List DataType → Option DataType
  | compare _, [l, r] => (l.supertype? r).map fun _ => .bool
  | and, types | or, types => if types.all fitsBool then some .bool else none
  | not, [t] => if fitsBool t then some .bool else none
  | isNull, [_] | isNotNull, [_] => some .bool
  | arith _, [l, r] => (l.supertype? r).bind arithmeticType?
  | like, [l, r] => if fitsString l && fitsString r then some .bool else none
  | _, _ => none

end Operator

end Polystore
