import Polystore.Catalog.Entry
import Polystore.Config
import Polystore.Text.Hash
import Polystore.Value

/-
  Polystore/Partition/Function.lean
  =================================
  **Partition functions.**  A partition function decides to which group a value
  of the partition column belongs.  HASH spreads the canonical texts over the
  groups; LIST looks for a qualifier that denotes the value; RANGE looks for an
  interval that contains it.  LIST and RANGE need an UNBOUND group for values
  that no other group accepts.

  `validate` refuses a proposed partitioning that its function could not route.
-/

namespace Polystore

/-- A proposed partitioning. -/
structure PartitionRequest where
  /-- The type of the partition column. -/
  type : DataType
  /-- The number of groups, UNBOUND included. -/
  groups : Nat
  /-- The qualifiers of the groups other than UNBOUND. -/
  qualifiers : List (List String)

namespace Partition

/-! ### Errors -/

def hashQualifiers : Error := ⟨.partition, "HASH partitioning does not support qualifiers"⟩

def tooFewGroups (least given : Nat) : Error :=
  ⟨.partition, "HASH partitioning requires at least " ++ Number.natText least ++
    " partition groups, got " ++ Number.natText given⟩

def tooManyGroups (kind : PartitionKind) (most given : Nat) : Error :=
  ⟨.partition, kind.name ++ " partitioning supports at most " ++ Number.natText most ++
    " partition groups, got " ++ Number.natText given⟩

def noQualifiers (kind : PartitionKind) : Error :=
  ⟨.partition, kind.name ++ " partitioning requires qualifiers"⟩

def groupCount (kind : PartitionKind) (what : String) (lists given : Nat) : Error :=
  ⟨.partition, kind.name ++ " partitioning with " ++ Number.natText lists ++ " " ++ what ++
    " requires " ++ Number.natText (lists + 1) ++ " partition groups (including UNBOUND), got " ++
    Number.natText given⟩

def emptyList (i : Nat) : Error :=
  ⟨.partition, "partition group " ++ Number.natText i ++ " has no qualifiers"⟩

def notANumber (q : String) (t : DataType) : Error :=
  ⟨.partition, "qualifier '" ++ q ++ "' is not a valid number for a " ++ t.name ++
    " partition column"⟩

def repeatedQualifier (q : String) : Error :=
  ⟨.partition, "qualifier '" ++ q ++ "' appears in more than one partition group"⟩

def notABound (q : String) : Error :=
  ⟨.partition, "qualifier '" ++ q ++ "' is not a valid number"⟩

def boundCount (given : Nat) : Error :=
  ⟨.partition, "a RANGE partition group needs exactly two qualifiers (lower and upper bound), got "
    ++ Number.natText given⟩

def notNumeric (t : DataType) : Error :=
  ⟨.partition, "RANGE partitioning requires a numeric partition column, got " ++ t.name⟩

def emptyRange (i : Nat) (lower upper : Float) : Error :=
  ⟨.partition, "partition group " ++ Number.natText i ++ " has lower bound " ++
    Number.plain.render lower ++ " above upper bound " ++ Number.plain.render upper⟩

def overlap (i j : Nat) : Error :=
  ⟨.partition, "ranges of partition groups " ++ Number.natText i ++ " and " ++
    Number.natText j ++ " overlap"⟩

def tableWithoutGroups : Error := ⟨.partition, "table has no partition groups"⟩

def unmatched (v : Value) : Error :=
  ⟨.partition, "no partition group accepts " ++ v.text ++ " and there is no UNBOUND group"⟩

/-! ### HASH -/

/-- The hash of a value's canonical text.  The seed is part of the routing:
    another one would send every row elsewhere. -/
def hash (v : Value) : UInt64 := Text.XxHash.digest 0 v.canonical.toUTF8.toList

/-- At most as many groups as the settings allow. -/
def validateCount (kind : PartitionKind) (r : PartitionRequest) (s : PartitionSettings) :
    Except Error Unit :=
  ensure (r.groups ≤ s.maxGroups) (tooManyGroups kind s.maxGroups r.groups)

def validateHash (r : PartitionRequest) (s : PartitionSettings) : Except Error Unit := do
  ensure (r.qualifiers.all List.isEmpty) hashQualifiers
  ensure (s.minHashGroups ≤ r.groups) (tooFewGroups s.minHashGroups r.groups)
  validateCount .hash r s

def targetHash (groups : List PartitionGroup) (v : Value) : Except Error PartitionId :=
  require tableWithoutGroups ((groups[(hash v).toNat % groups.length]?).map (·.id))

/-! ### LIST -/

/-- The group for values that no other one accepts. -/
def unboundGroup (groups : List PartitionGroup) (v : Value) : Except Error PartitionId :=
  require (unmatched v) ((groups.find? (·.unbound)).map (·.id))

/-- Whether a qualifier, read as a value of the column's type, denotes `v`.  One
    that cannot be read has to be the value's canonical text. -/
def qualifierMatches (q : String) (t : DataType) (v : Value) : Bool :=
  !v.isNull &&
    match Value.parse q t with
    | .ok w => w.compare? v = some .eq
    | .error _ => q = v.canonical

/-- A qualifier without the white space around it. -/
def trimmed (q : String) : List Char := Text.trim q.toList

/-- Check the qualifiers of one group; `seen` holds the ones before.  Gives the
    qualifiers seen after it. -/
def validateQualifiers (t : DataType) (seen : List (List Char)) :
    List String → Except Error (List (List Char))
  | [] => .ok seen
  | q :: rest => do
    ensure (!t.isNumeric || (Value.parse q t).isOk) (notANumber q t)
    ensure (!seen.contains (trimmed q)) (repeatedQualifier q)
    validateQualifiers t (trimmed q :: seen) rest

/-- Check the qualifier lists from group `i` on. -/
def validateLists (t : DataType) (seen : List (List Char)) (i : Nat) :
    List (List String) → Except Error Unit
  | [] => .ok ()
  | list :: rest => do
    ensure (!list.isEmpty) (emptyList i)
    let seen ← validateQualifiers t seen list
    validateLists t seen (i + 1) rest

def validateList (r : PartitionRequest) (s : PartitionSettings) : Except Error Unit := do
  let lists := r.qualifiers.length
  ensure (!r.qualifiers.isEmpty) (noQualifiers .list)
  ensure (r.groups = lists + 1) (groupCount .list "qualifier lists" lists r.groups)
  validateLists r.type [] 0 r.qualifiers
  validateCount .list r s

def targetList (groups : List PartitionGroup) (t : DataType) (v : Value) :
    Except Error PartitionId :=
  match groups.find? fun g => !g.unbound && g.qualifiers.any (qualifierMatches · t v) with
  | some g => .ok g.id
  | none => unboundGroup groups v

/-! ### RANGE -/

/-- A bound: a qualifier that is a number. -/
def readBound (q : String) (t : DataType) : Except Error Float :=
  match (Value.parse q t).toOption.bind Value.asDouble? with
  | some x => if x.isNaN then .error (notABound q) else .ok x
  | none => .error (notABound q)

/-- The lower and the upper bound of a group. -/
def bounds (qualifiers : List String) (t : DataType) : Except Error (Float × Float) :=
  match qualifiers with
  | [lower, upper] => do return (← readBound lower t, ← readBound upper t)
  | qs => .error (boundCount qs.length)

/-- The rank of a double in the order that also tells the zeros apart, negative
    zero first. -/
def rank (x : Float) : Int :=
  let bits := x.toBits.toNat
  if bits < Nat.pow 2 63 then bits else -(bits - Int.pow 2 63) - 1

/-- An interval with the number of its group. -/
structure Range where
  lower : Float
  upper : Float
  group : Nat

/-- Read the intervals from group `i` on. -/
def readRanges (t : DataType) (i : Nat) : List (List String) → Except Error (List Range)
  | [] => .ok []
  | list :: rest => do
    let (lower, upper) ← bounds list t
    ensure (lower ≤ upper) (emptyRange i lower upper)
    return ⟨lower, upper, i⟩ :: (← readRanges t (i + 1) rest)

/-- Intervals in order of their lower bounds have to begin after the one before
    has ended. -/
def validateDisjoint : List Range → Except Error Unit
  | a :: b :: rest => do
    ensure (a.upper < b.lower) (overlap a.group b.group)
    validateDisjoint (b :: rest)
  | _ => .ok ()

def validateRange (r : PartitionRequest) (s : PartitionSettings) : Except Error Unit := do
  let lists := r.qualifiers.length
  ensure r.type.isNumeric (notNumeric r.type)
  ensure (!r.qualifiers.isEmpty) (noQualifiers .range)
  ensure (r.groups = lists + 1) (groupCount .range "ranges" lists r.groups)
  let ranges ← readRanges r.type 0 r.qualifiers
  validateDisjoint (ranges.mergeSort fun a b => rank a.lower ≤ rank b.lower)
  validateCount .range r s

/-- The first of the groups whose interval contains `x`. -/
def rangeContaining? (t : DataType) (x : Float) :
    List PartitionGroup → Except Error (Option PartitionId)
  | [] => .ok none
  | g :: rest => do
    let (lower, upper) ← bounds g.qualifiers t
    if lower ≤ x ∧ x ≤ upper then return some g.id else rangeContaining? t x rest

def targetRange (groups : List PartitionGroup) (t : DataType) (v : Value) :
    Except Error PartitionId := do
  if let some x := v.asDouble? then
    if let some id ← rangeContaining? t x (groups.filter (!·.unbound)) then
      return id
  unboundGroup groups v

end Partition

namespace PartitionKind

/-- Whether the function needs a group for values that no other one accepts. -/
def needsUnbound : PartitionKind → Bool
  | hash => false
  | list | range => true

/-- Refuse a partitioning that the function could not route. -/
def validate (k : PartitionKind) (r : PartitionRequest) (s : PartitionSettings) :
    Except Error Unit :=
  match k with
  | hash => Partition.validateHash r s
  | list => Partition.validateList r s
  | range => Partition.validateRange r s

/-- The group of the rows whose partition column, of type `t`, holds `v`.  The
    groups are in routing order. -/
def target (k : PartitionKind) (groups : List PartitionGroup) (t : DataType) (v : Value) :
    Except Error PartitionId :=
  match k with
  | hash => Partition.targetHash groups v
  | list => Partition.targetList groups t v
  | range => Partition.targetRange groups t v

end PartitionKind

end Polystore
