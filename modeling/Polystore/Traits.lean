import Polystore.Backend
import Polystore.Number.Layout
import Polystore.Text.Lines

/-
  Polystore/Traits.lean
  =====================
  **Physical properties of plan nodes.**  A node's convention says which engine
  runs it, its collation in which order its rows come, and its distribution how
  they are spread over sites.  Within a plan the convention changes only at a
  converter.
-/

namespace Polystore

/-- Which engine runs a node. -/
inductive Convention where
  /-- No engine: the node says what to compute, not how. -/
  | logical
  /-- The local engine, which can run everything. -/
  | enumerable
  /-- The named store of a backend family. -/
  | store (backend : Backend) (name : String)
deriving DecidableEq

namespace Convention

/-- Whether nodes of this convention can be run. -/
def isPhysical : Convention → Bool
  | logical => false
  | _ => true

def backend? : Convention → Option Backend
  | store b _ => some b
  | _ => none

def storeName? : Convention → Option String
  | store _ name => some name
  | _ => none

def text : Convention → String
  | logical => "LOGICAL"
  | enumerable => "ENUMERABLE"
  | store b name => b.name ++ ":" ++ name

/-- The rank of the engine; stores come last, ordered by family. -/
def rank : Convention → Nat
  | logical => 0
  | enumerable => 1
  | store b _ => 2 + b.rank

/-- The order of conventions: by rank, then by store name. -/
def compare (a b : Convention) : Ordering :=
  (Ord.compare a.rank b.rank).then
    (Ord.compare (a.storeName?.getD "") (b.storeName?.getD ""))

instance : Ord Convention := ⟨compare⟩

instance : Std.TransOrd Convention :=
  inferInstanceAs (Std.TransCmp (compareLex (compareOn rank) (compareOn (·.storeName?.getD ""))))

/-- The rank tells the engine and, for stores, the family; the name tells the
    store. -/
instance : Std.LawfulEqOrd Convention where
  eq_of_compare {a b} h := by
    obtain ⟨hrank, hname⟩ := Ordering.then_eq_eq.mp h
    replace hrank := Std.LawfulEqOrd.eq_of_compare hrank
    replace hname := Std.LawfulEqOrd.eq_of_compare hname
    cases a <;> cases b <;> simp only [rank, storeName?, Option.getD] at hrank hname
    case store.store =>
      rw [Backend.rank_injective (Nat.add_left_cancel hrank), hname]
    all_goals first | rfl | omega

end Convention

inductive Direction where
  | ascending
  | descending
deriving DecidableEq

/-- Where `NULL` goes in an order. -/
inductive NullOrder where
  | first
  | last
deriving DecidableEq

/-- The order on one field. -/
structure FieldCollation where
  field : Nat
  direction : Direction
  nulls : NullOrder
deriving DecidableEq

/-- The order on several fields, the most significant first. -/
abbrev Collation := List FieldCollation

def FieldCollation.text (c : FieldCollation) : String :=
  "$" ++ Number.natText c.field ++
    (if c.direction = .descending then " DESC" else "") ++
    (if c.nulls = .first then " NULLS FIRST" else "")

/-- The fields in brackets. -/
def Collation.text (c : Collation) : String :=
  "[" ++ Text.commaList (c.map FieldCollation.text) ++ "]"

/-- Rows in this order are also in every order that it continues. -/
def Collation.satisfies (c required : Collation) : Bool := required.isPrefixOf c

/-- How rows are spread over sites. -/
inductive Distribution where
  | any
  | single
  /-- By a hash of the given fields. -/
  | hash (fields : List Nat)
  /-- Every site has every row. -/
  | broadcast
deriving DecidableEq

def Distribution.satisfies (d required : Distribution) : Bool :=
  required = .any || d = required

/-- All physical properties. -/
structure Traits where
  convention : Convention := .logical
  collation : Collation := []
  distribution : Distribution := .any
deriving DecidableEq

namespace Traits

/-- Whether a node with these traits can stand in for the required ones. -/
def satisfies (t required : Traits) : Bool :=
  t.convention = required.convention && t.collation.satisfies required.collation &&
    t.distribution.satisfies required.distribution

/-- The convention, and the collation unless it is empty. -/
def text (t : Traits) : String :=
  t.convention.text ++ (if t.collation.isEmpty then "" else "." ++ Collation.text t.collation)

end Traits

end Polystore
