import Polystore.Plan.Basic

/-
  Polystore/Plan/StoreQuery.lean
  ==============================
  **Queries to stores.**  Below each converter that leaves a store's convention
  stands a chain of nodes which that store runs; their fragments, innermost
  first, are one query.  A query is sent through a client of its backend once
  every parameter it mentions has a value.
-/

namespace Polystore

/-- The native part of a plan below one converter. -/
structure StoreQuery where
  /-- The converter that takes over the rows. -/
  converter : NodeId
  backend : Backend
  store : String
  /-- The fragments, the scan first. -/
  fragments : List Fragment

namespace StoreQuery

def noFragment (kind : RelKind) (c : Convention) : Error :=
  ⟨.planning, kind.name ++ " node in " ++ c.text ++ " carries no native fragment"⟩

def wrongClient (q : StoreQuery) (client : Backend) : Error :=
  ⟨.invalidParameter, q.backend.name ++ " query for store " ++ q.store ++ " sent to a " ++
    client.name ++ " client"⟩

def wrongFragment (f : Fragment) (q : StoreQuery) : Error :=
  ⟨.internal, f.backend.name ++ " fragment in a " ++ q.backend.name ++ " query"⟩

def unboundParams (q : StoreQuery) (needed bound : Nat) : Error :=
  ⟨.invalidParameter, "query for store " ++ q.store ++ " references " ++
    Number.natText needed ++ " parameters, " ++ Number.natText bound ++ " bound"⟩

/-- The number of parameters to bind: one more than the highest mentioned. -/
def paramCount (q : StoreQuery) : Nat :=
  q.fragments.foldl (fun n f => max n (f.params.max?.elim 0 (· + 1))) 0

/-- The fragments of the nodes for as long as they are of one convention. -/
def fragmentsOf (c : Convention) : List Node → Except Error (List Fragment)
  | [] => return []
  | n :: rest =>
    if n.convention ≠ c then return []
    else do
      let f ← require (noFragment n.kind c) n.native
      return f :: (← fragmentsOf c rest)

/-- The query below a node, if it is a converter from a store. -/
def below? (a : Arena) (id : NodeId) : Except Error (Option StoreQuery) := do
  match (← a.get id).op with
  | .converter input (.store backend name) =>
    let nodes ← (← a.preorder input).mapM a.get
    let fragments ← fragmentsOf (.store backend name) nodes
    return some ⟨id, backend, name, fragments.reverse⟩
  | _ => return none

/-- A client of a backend, which runs fragments in a session and yields rows. -/
structure Client (σ ρ : Type) where
  backend : Backend
  /-- Open a session with a named store. -/
  start : String → Except Error σ
  /-- Run fragments, innermost first, with the parameters bound. -/
  run : σ → List Fragment → List Value → Except Error (ρ × σ)

/-- Run a query through a client after checking that they belong together and
    that enough parameters are bound. -/
def execute {σ ρ : Type} (q : StoreQuery) (client : Client σ ρ) (session : σ)
    (params : List Value) : Except Error (ρ × σ) := do
  ensure (q.backend = client.backend) (q.wrongClient client.backend)
  if let some f := q.fragments.find? (·.backend ≠ q.backend) then
    throw (wrongFragment f q)
  ensure (q.paramCount ≤ params.length) (q.unboundParams q.paramCount params.length)
  client.run session q.fragments params

end StoreQuery

/-- The queries of a plan, in the order of its nodes. -/
def Plan.storeQueries (p : Plan) : Except Error (List StoreQuery) := do
  return (← (← p.preorder).mapM (StoreQuery.below? p.arena)).filterMap id

end Polystore
