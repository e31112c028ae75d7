/-
  Polystore/Error.lean
  ====================
  **Errors.**  An error belongs to one of twelve kinds, by which a caller decides
  what to do, and carries a text for the user.  Each module names the causes it
  can report, as functions from what the text mentions.
-/

namespace Polystore

/-- What an error is about. -/
inductive ErrorKind where
  | type
  | value
  | schema
  | planning
  | catalog
  | partition
  | placement
  | grouping
  | notImplemented
  | invalidParameter
  | internal
  | external
deriving DecidableEq, Repr

def ErrorKind.all : List ErrorKind :=
  [type, value, schema, planning, catalog, partition, placement, grouping, notImplemented,
   invalidParameter, internal, external]

/-- The kind's name, which opens the message. -/
def ErrorKind.name : ErrorKind → String
  | .type => "TypeError"
  | .value => "ValueError"
  | .schema => "SchemaError"
  | .planning => "PlanningError"
  | .catalog => "CatalogError"
  | .partition => "PartitionError"
  | .placement => "PlacementError"
  | .grouping => "GroupingError"
  | .notImplemented => "NotImplemented"
  | .invalidParameter => "InvalidParameter"
  | .internal => "InternalError"
  | .external => "ExternalError"

/-- An error of a kind, with its text. -/
structure Error where
  kind : ErrorKind
  text : String
deriving DecidableEq, Repr

/-- The full message. -/
def Error.message (e : Error) : String := e.kind.name ++ ": " ++ e.text

/-- Shared state was left half changed by a holder that failed. -/
def Error.poisoned (what : String) : Error := ⟨.internal, "lock poisoned: " ++ what⟩

/-- Go on if the condition holds. -/
def ensure (condition : Bool) (error : Error) : Except Error Unit :=
  if condition then .ok () else .error error

/-- A value that has to be present. -/
def require {α : Type} (error : Error) : Option α → Except Error α
  | some a => .ok a
  | none => .error error

end Polystore
