import Polystore.Backend
import Polystore.Json.Printer
import Polystore.OrdinalSet

/-
  Polystore/Fragment.lean
  =======================
  **Native query fragments.**  A node that a store runs carries the piece of the
  store's own query that does its work.  Parameters stand in the fragment as
  placeholders; the fragment lists which ones have to be bound before it is sent.
-/

namespace Polystore

/-- Which part of a native query a fragment is. -/
inductive Clause where
  | scan
  | filter
  | project
  | aggregate
  | sort
deriving DecidableEq

def Clause.name : Clause → String
  | scan => "scan"
  | filter => "filter"
  | project => "project"
  | aggregate => "aggregate"
  | sort => "sort"

/-- The body of a fragment in the store's language. -/
inductive FragmentBody where
  | json (j : Json)
  | plain (s : String)

def FragmentBody.text : FragmentBody → String
  | json j => j.compact
  | plain s => s

/-- A piece of a native query. -/
structure Fragment where
  backend : Backend
  clause : Clause
  body : FragmentBody
  params : OrdinalSet := .empty

/-- Backend, clause and body. -/
def Fragment.text (f : Fragment) : String :=
  f.backend.name ++ ":" ++ f.clause.name ++ " " ++ f.body.text

end Polystore
