import Polystore.Number.Layout

/-
  Polystore/Json/Basic.lean
  =========================
  **JSON values.**  Numbers are integers or doubles, never both: `1` and `1.0`
  are different values.  An object is a list of members; `Json.insert` keeps the
  members in strictly ascending order of their names, and an object built
  through it (or `Json.ofMembers`) has one member per name.  Records whose
  members have a fixed order of their own are written as plain member lists.
-/

namespace Polystore

/-- A JSON value. -/
inductive Json where
  | null
  | bool (b : Bool)
  | int (i : Int)
  | float (x : Float)
  | string (s : String)
  | array (items : List Json)
  | object (members : List (String × Json))
deriving Inhabited

namespace Json

/-- The members of an object. -/
abbrev Members := List (String × Json)

/-- Set the member `name`, keeping the names in ascending order. -/
def insert (name : String) (value : Json) : Members → Members
  | [] => [(name, value)]
  | (n, v) :: rest =>
    if name < n then (name, value) :: (n, v) :: rest
    else if name = n then (name, value) :: rest
    else (n, v) :: insert name value rest

/-- The member `name`, if present. -/
def lookup (name : String) (members : Members) : Option Json :=
  (members.find? (·.1 = name)).map (·.2)

/-- Whether there is a member `name`. -/
def hasMember (name : String) (members : Members) : Bool := (lookup name members).isSome

/-- Without the member `name`. -/
def remove (name : String) (members : Members) : Members := members.filter (·.1 ≠ name)

/-- The object with the given members, in ascending order of names; of several
    members of one name the last counts. -/
def ofMembers (members : Members) : Json :=
  .object (members.foldl (fun m (n, v) => insert n v m) [])

/-- The object with a single member. -/
def single (name : String) (value : Json) : Json := .object [(name, value)]

/-- A natural number. -/
def nat (n : Nat) : Json := .int n

/-- Equality of JSON values.  Doubles compare as numbers. -/
protected def beq : Json → Json → Bool
  | .null, .null => true
  | .bool a, .bool b => a == b
  | .int a, .int b => a == b
  | .float a, .float b => a == b
  | .string a, .string b => a == b
  | .array xs, .array ys => beqItems xs ys
  | .object xs, .object ys => beqMembers xs ys
  | _, _ => false
where
  beqItems : List Json → List Json → Bool
    | [], [] => true
    | x :: xs, y :: ys => Json.beq x y && beqItems xs ys
    | _, _ => false
  beqMembers : List (String × Json) → List (String × Json) → Bool
    | [], [] => true
    | (n, x) :: xs, (m, y) :: ys => n == m && Json.beq x y && beqMembers xs ys
    | _, _ => false

instance : BEq Json := ⟨Json.beq⟩

end Json

end Polystore
