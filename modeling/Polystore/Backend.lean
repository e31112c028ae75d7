/-
  Polystore/Backend.lean
  ======================
  **Families of storage backends.**  Each family has its own query language and
  its own limits on what it can evaluate; several stores of one family may be
  deployed side by side.
-/

namespace Polystore

/-- A family of backends. -/
inductive Backend where
  /-- Documents with nested fields, matched by query documents. -/
  | document
  /-- Rows under a partition key and clustering columns. -/
  | wideColumn
  /-- An inverted index, queried by clauses. -/
  | search
  /-- One file a row, addressed by the primary key. -/
  | file
deriving DecidableEq, Repr

namespace Backend

/-- All families. -/
def all : List Backend := [document, wideColumn, search, file]

/-- The name in settings, conventions and messages. -/
def name : Backend → String
  | document => "DOCUMENT"
  | wideColumn => "WIDE_COLUMN"
  | search => "SEARCH"
  | file => "FILE"

/-- The position in `all`, which orders the families. -/
def rank : Backend → Nat
  | document => 0
  | wideColumn => 1
  | search => 2
  | file => 3

/-- Two families with one name are the same. -/
theorem name_injective {a b : Backend} (h : a.name = b.name) : a = b := by
  cases a <;> cases b <;> first | rfl | exact absurd h (by decide)

theorem rank_injective {a b : Backend} (h : a.rank = b.rank) : a = b := by
  cases a <;> cases b <;> first | rfl | exact absurd h (by decide)

end Backend

end Polystore
