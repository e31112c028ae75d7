import Polystore.Expr.Basic
import Polystore.Like

/-
  Polystore/Expr/Eval.lean
  ========================
  **Evaluation against one row.**  All operands of a call are evaluated first,
  from left to right, and the first error ends the evaluation.  The connectives
  work with three truth values: a conjunction with a `FALSE` is `FALSE` even
  beside `NULL`, and dually for disjunctions; they look at their operands in
  order and stop at the deciding one.
-/

namespace Polystore

namespace Expr

/-! ### Errors -/

def fieldMissing (index arity : Nat) : Error :=
  ⟨.schema, "field $" ++ Number.natText index ++ " out of bounds for row of arity " ++
    Number.natText arity⟩

def paramUnbound (index : Nat) : Error :=
  ⟨.invalidParameter, "dynamic parameter ?" ++ Number.natText index ++ " is not bound"⟩

def notBoolean (v : Value) : Error := ⟨.type, "expected a boolean, got " ++ v.typeName⟩

def incomparable (l r : Value) : Error :=
  ⟨.type, "cannot compare " ++ l.typeName ++ " with " ++ r.typeName⟩

def likeOperands (l r : Value) : Error :=
  ⟨.type, "LIKE expects strings, got " ++ l.typeName ++ " and " ++ r.typeName⟩

def arithmeticOperands (op : Arithmetic) (l r : Value) : Error :=
  ⟨.type, "cannot apply " ++ op.symbol ++ " to " ++ l.typeName ++ " and " ++ r.typeName⟩

def overflow (op : Arithmetic) (a b : Int64) : Error :=
  ⟨.value, "BIGINT overflow in " ++ Number.intText a.toInt ++ " " ++ op.symbol ++ " " ++
    Number.intText b.toInt⟩

def divisionByZero : Error := ⟨.value, "division by zero"⟩

def uncastable (v : Value) (t : DataType) : Error :=
  ⟨.type, "cannot cast " ++ v.typeName ++ " to " ++ t.name⟩

def oneOperand (op : Operator) (count : Nat) : Error :=
  ⟨.internal, op.symbol ++ " expects one operand, got " ++ Number.natText count⟩

def twoOperands (op : Operator) (count : Nat) : Error :=
  ⟨.internal, op.symbol ++ " expects two operands, got " ++ Number.natText count⟩

/-! ### Operators on values -/

/-- The truth value of a value; `NULL` is the third one. -/
def truth : Value → Except Error (Option Bool)
  | .null => .ok none
  | .bool b => .ok (some b)
  | v => .error (notBoolean v)

def ofTruth : Option Bool → Value
  | none => .null
  | some b => .bool b

/-- Conjunction, or disjunction, of values: `decisive` is the truth value that
    settles the matter, and `sawNull` says whether a `NULL` came before. -/
def connect (decisive sawNull : Bool) : List Value → Except Error Value
  | [] => .ok (if sawNull then .null else .bool (!decisive))
  | v :: rest => do
    match ← truth v with
    | none => connect decisive true rest
    | some b => if b = decisive then .ok (.bool b) else connect decisive sawNull rest

/-- Compare two values; a comparison with `NULL` is `NULL`. -/
def compareValues (c : Comparison) (l r : Value) : Except Error Value :=
  if l.isNull || r.isNull then .ok .null
  else
    match l.compare? r with
    | some o => .ok (.bool (c.holds o))
    | none => .error (incomparable l r)

/-- Integer arithmetic, refusing results outside 64 bits. -/
def integerArithmetic (op : Arithmetic) (a b : Int64) : Except Error Value :=
  match op with
  | .divide =>
    if b.toInt = 0 then .error divisionByZero
    else require (overflow op a b) ((Number.int64? (a.toInt.tdiv b.toInt)).map .bigint)
  | .plus => require (overflow op a b) ((Number.int64? (a.toInt + b.toInt)).map .bigint)
  | .minus => require (overflow op a b) ((Number.int64? (a.toInt - b.toInt)).map .bigint)
  | .times => require (overflow op a b) ((Number.int64? (a.toInt * b.toInt)).map .bigint)

def doubleArithmetic (op : Arithmetic) (a b : Float) : Float :=
  match op with
  | .plus => a + b
  | .minus => a - b
  | .times => a * b
  | .divide => a / b

/-- Arithmetic on values: exact on integers, on doubles otherwise. -/
def arithmetic (op : Arithmetic) (l r : Value) : Except Error Value :=
  match l, r with
  | .null, _ | _, .null => .ok .null
  | .bigint a, .bigint b => integerArithmetic op a b
  | l, r =>
    match l.asDouble?, r.asDouble? with
    | some a, some b => .ok (.double (doubleArithmetic op a b))
    | _, _ => .error (arithmeticOperands op l r)

/-- Pattern matching on values. -/
def likeValues (l r : Value) : Except Error Value :=
  match l, r with
  | .null, _ | _, .null => .ok .null
  | .string text, .string pattern => .ok (.bool (likeMatch text pattern))
  | l, r => .error (likeOperands l r)

/-- Convert a value that is neither `NULL` nor of the target type already.  A
    finite double loses its fraction and saturates; everything has a text; and
    texts are read. -/
def convert (v : Value) (t : DataType) : Except Error Value :=
  match v, t with
  | .bigint i, .double => .ok (.double (Float.ofInt i.toInt))
  | .double x, .bigint =>
    match (Number.parts x).truncate? with
    | some i => .ok (.bigint (Number.saturateInt64 i))
    | none => .error (uncastable v t)
  | v, .string => .ok (.string v.canonical)
  | .string s, t => Value.parse s t
  | v, t => .error (uncastable v t)

/-- Convert a value to a type. -/
def castValue (v : Value) (t : DataType) : Except Error Value :=
  if v.isNull || t = .any || v.dataType = t then .ok v else convert v t

/-- The only operand. -/
def single (op : Operator) : List Value → Except Error Value
  | [v] => .ok v
  | vs => .error (oneOperand op vs.length)

/-- The two operands. -/
def pair (op : Operator) : List Value → Except Error (Value × Value)
  | [l, r] => .ok (l, r)
  | vs => .error (twoOperands op vs.length)

/-- The value of a call from the values of its operands. -/
def applyValues (op : Operator) (values : List Value) (type : DataType) : Except Error Value :=
  match op with
  | .and => connect false false values
  | .or => connect true false values
  | .not => do return ofTruth ((← truth (← single op values)).map (!·))
  | .isNull => do return .bool (← single op values).isNull
  | .isNotNull => do return .bool (!(← single op values).isNull)
  | .compare c => do
    let (l, r) ← pair op values
    compareValues c l r
  | .arith a => do
    let (l, r) ← pair op values
    arithmetic a l r
  | .like => do
    let (l, r) ← pair op values
    likeValues l r
  | .cast => do castValue (← single op values) type

/-! ### Expressions -/

/-- The value of an expression on a row, with the parameters bound. -/
def eval (row params : List Value) : Expr → Except Error Value
  | literal v _ => .ok v
  | field i _ => require (fieldMissing i row.length) row[i]?
  | param i _ => require (paramUnbound i) params[i]?
  | call op operands type => do applyValues op (← evalAll operands) type
where
  /-- The values of the operands, from left to right. -/
  evalAll : List Expr → Except Error (List Value)
    | [] => .ok []
    | e :: rest => do
      let v ← eval row params e
      let vs ← evalAll rest
      return v :: vs

end Expr

end Polystore
