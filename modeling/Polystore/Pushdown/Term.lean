import Polystore.Expr.FieldComparison

/-
  Polystore/Pushdown/Term.lean
  ============================
  **Terms.**  A term is a conjunct in a form that backends can write: a
  comparison of one field with a literal or a parameter, a test for `NULL`, or a
  pattern.  A comparison with the literal `NULL` is not a term, because it is
  never true.
-/

namespace Polystore

/-- The right-hand side of a term. -/
inductive TermValue where
  | literal (v : Value)
  /-- The value bound to a parameter when the query runs. -/
  | param (i : Nat)
deriving BEq

namespace TermValue

def ofExpr? : Expr → Option TermValue
  | .literal v _ => if v.isNull then none else some (literal v)
  | .param i _ => some (param i)
  | _ => none

def param? : TermValue → Option Nat
  | param i => some i
  | literal _ => none

/-- The order of two values as far as it is known before the query runs. -/
def compare? : TermValue → TermValue → Option Ordering
  | literal a, literal b => a.compare? b
  | _, _ => none

def text : TermValue → String
  | literal v => v.text
  | param i => "?" ++ Number.natText i

end TermValue

/-- One end of a range. -/
structure Bound where
  value : TermValue
  inclusive : Bool
deriving BEq

/-- A conjunct that backends can write. -/
inductive Term where
  | eq (field : Nat) (value : TermValue)
  | ne (field : Nat) (value : TermValue)
  /-- At least one end is present. -/
  | range (field : Nat) (lower upper : Option Bound)
  | isNull (field : Nat)
  | isNotNull (field : Nat)
  | like (field : Nat) (pattern : String)

namespace Term

def ofComparison (field : Nat) (op : Comparison) (value : TermValue) : Term :=
  match op with
  | .eq => eq field value
  | .ne => ne field value
  | .gt => range field (some ⟨value, false⟩) none
  | .ge => range field (some ⟨value, true⟩) none
  | .lt => range field none (some ⟨value, false⟩)
  | .le => range field none (some ⟨value, true⟩)

/-- Recognize a conjunct. -/
def ofExpr? (e : Expr) : Option Term :=
  match FieldComparison.ofExpr? e with
  | some c => (TermValue.ofExpr? c.operand).map (ofComparison c.field c.op)
  | none =>
    match e with
    | .call .isNull [.field i _] _ => some (isNull i)
    | .call .isNotNull [.field i _] _ => some (isNotNull i)
    | .call .like [.field i _, .literal (.string pattern) _] _ => some (like i pattern)
    | _ => none

def field : Term → Nat
  | eq i _ | ne i _ | range i _ _ | isNull i | isNotNull i | like i _ => i

/-- The parameters read. -/
def params : Term → List Nat
  | eq _ v | ne _ v => v.param?.toList
  | range _ lower upper => (lower.toList ++ upper.toList).filterMap (·.value.param?)
  | _ => []

def isEquality : Term → Bool
  | eq .. => true
  | _ => false

def isRange : Term → Bool
  | range .. => true
  | _ => false

/-- Whether this is an equality with a value known before the query runs. -/
def isLiteralEquality : Term → Bool
  | eq _ (.literal _) => true
  | _ => false

end Term

/-- The fields that are equal to a literal according to some conjuncts. -/
def pinnedFields (conjuncts : List Expr) : OrdinalSet :=
  .ofList (((conjuncts.filterMap Term.ofExpr?).filter Term.isLiteralEquality).map Term.field)

end Polystore
