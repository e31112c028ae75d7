import Polystore.Proofs.CatalogStates

/-
  Polystore/Proofs/CatalogCalls.lean
  ==================================
  **What a call does to the catalog.**  The nine changes that a caller can ask
  for are the constructors of `CatalogCall`; a run is a list of them.  A call
  leaves the state alone or writes what `Writes` says, one constructor a call,
  with everything that the call has checked before (`after_cases`).  What holds
  of the empty catalog and is kept by every write therefore holds of every
  reachable state (`writes_induction`), and so after every run, whichever of its
  calls were refused (`reachable_run`).
-/

namespace Polystore

/-- A change of the catalog, as a caller asks for it. -/
inductive CatalogCall where
  | addStore (name : String) (b : Backend)
  | createTable (d : TableDef)
  | addGroup (id : TableId) (name : String) (qualifiers : List String) (unbound : Bool)
  | install (id : TableId) (p : Partitioning) (groups : List PartitionId)
  | addPlacement (s : StoreId) (col : ColumnId) (g : PartitionId)
  | setNames (s : StoreId) (col : ColumnId) (schema table name : String)
  | deleteColumn (s : StoreId) (col : ColumnId)
  | deleteData (s : StoreId) (id : TableId)
  | setRows (id : TableId) (rows : Float)

namespace CatalogCall

/-- The state that the call leaves behind. -/
def after : CatalogCall → Catalog → Catalog
  | addStore name b => (Catalog.addStore name b).after
  | createTable d => (Catalog.createTable d).after
  | addGroup id name qualifiers unbound => (Catalog.addGroup id name qualifiers unbound).after
  | install id p groups => (Catalog.install id p groups).after
  | addPlacement s col g => (Catalog.addPlacement s col g).after
  | setNames s col schema table name => (Catalog.setNames s col schema table name).after
  | deleteColumn s col => (Catalog.deleteColumn s col).after
  | deleteData s id => (Catalog.deleteData s id).after
  | setRows id rows => (Catalog.setRows id rows).after

/-- The state after some calls, refused or not. -/
def run (calls : List CatalogCall) (c : Catalog) : Catalog :=
  calls.foldl (fun c x => x.after c) c

/-- Every call of a run satisfies `P` in the state in which it is made. -/
def Throughout (P : CatalogCall → Catalog → Prop) : List CatalogCall → Catalog → Prop
  | [], _ => True
  | x :: rest, c => P x c ∧ Throughout P rest (x.after c)

variable {c c' : Catalog} {x : CatalogCall}

/-! ### One call -/

/-- What a call that is not refused writes, and what it has checked. -/
inductive Writes (c : Catalog) : CatalogCall → Catalog → Prop
  | addStore {name : String} {b : Backend} (hnew : ∀ s ∈ c.stores, s.name ≠ name) :
    Writes c (.addStore name b) { c with
      version := c.version + 1
      lastId := c.lastId + 1
      stores := c.stores ++ [⟨⟨c.lastId + 1⟩, name, b⟩] }
  | createTable {d : TableDef} {partitionKey clusteringKey : List ColumnId}
    (hnew : ∀ t ∈ c.tables, t.space = d.space → t.name ≠ d.name)
    (hnames : (d.columns.map (·.name)).Nodup)
    (hpartition : partitionKey ⊆ (Catalog.columnsFor d c).map (·.id))
    (hclustering : clusteringKey ⊆ (Catalog.columnsFor d c).map (·.id)) :
    Writes c (.createTable d)
      { Catalog.created d partitionKey clusteringKey c with version := c.version + 1 }
  | addGroup {t : Table} {name : String} {qualifiers : List String} {unbound : Bool}
    (ht : t ∈ c.tables) :
    Writes c (.addGroup t.id name qualifiers unbound)
      { (Catalog.withGroup t.id name qualifiers unbound c).2 with version := c.version + 1 }
  | install {id : TableId} {p : Partitioning} {groups : List PartitionId} (hne : groups ≠ [])
    (hcolumn : ∃ x ∈ c.columns, x.id = p.column ∧ x.table = id)
    (hgroups : ∀ g ∈ groups, ∃ entry ∈ c.groups, entry.id = g ∧ entry.table = id) :
    Writes c (.install id p groups)
      { Catalog.installed id p groups c with version := c.version + 1 }
  | addPlacement {st : Store} {x : Column} {g : PartitionGroup} (hst : st ∈ c.stores)
    (hx : x ∈ c.columns) (hg : g ∈ c.groups) (htable : g.table = x.table) :
    Writes c (.addPlacement st.id x.id g.id) { c with
      version := c.version + 1
      placements := Catalog.insertPlacement ⟨g.id, st.id, x.id⟩ c.placements
      locations := Catalog.insertLocation ⟨st.id, x.id, none, none, none⟩ c.locations }
  | setNames {s : StoreId} {col : ColumnId} {schema table name : String} :
    Writes c (.setNames s col schema table name) { c with
      version := c.version + 1
      locations := c.locations.map fun l =>
        if l.store = s ∧ l.column = col then ⟨s, col, some schema, some table, some name⟩ else l }
  | deleteColumn {s : StoreId} {col : ColumnId} :
    Writes c (.deleteColumn s col)
      { Catalog.withoutColumns s [col] c with version := c.version + 1 }
  | deleteData {s : StoreId} {t : Table} (ht : t ∈ c.tables) :
    Writes c (.deleteData s t.id)
      { Catalog.withoutColumns s t.columns c with version := c.version + 1 }
  | setRows {id : TableId} {rows : Float} :
    Writes c (.setRows id rows)
      { Catalog.mapTable id (fun t => { t with rows := some rows }) c with
        version := c.version + 1 }

/-- It is enough to say what the computed states of a call are. -/
theorem cases_of_publish {α : Type} {change : Catalog → Except Error (α × Catalog)}
    (hafter : x.after c = (Catalog.publish change).after c)
    (h : ∀ a next, change c = .ok (a, next) → Writes c x { next with version := c.version + 1 }) :
    x.after c = c ∨ Writes c x (x.after c) := by
  rw [hafter]
  rcases Catalog.publish_cases change c with ⟨-, hsame⟩ | ⟨a, next, hnext, -, hpublished⟩
  · exact .inl hsame
  · rw [hpublished]
    exact .inr (h a next hnext)

/-- A call is refused and changes nothing, or writes. -/
theorem after_cases (x : CatalogCall) (c : Catalog) :
    x.after c = c ∨ Writes c x (x.after c) := by
  cases x with
  | addStore name b =>
    refine cases_of_publish rfl fun _ next h => ?_
    obtain ⟨_, hnew, h⟩ := except_bind_eq_ok.mp h
    obtain ⟨-, rfl⟩ := Prod.mk.inj (Except.ok.inj h)
    exact .addStore fun s hs => by simpa using List.all_eq_true.mp (ensure_eq_ok.mp hnew) s hs
  | createTable d =>
    refine cases_of_publish rfl fun _ next h => ?_
    obtain ⟨hnew, hnames, _, _, hpartition, hclustering, rfl⟩ := Catalog.withTable_eq_ok h
    exact .createTable hnew hnames hpartition hclustering
  | addGroup id name qualifiers unbound =>
    refine cases_of_publish rfl fun _ next h => ?_
    obtain ⟨_, ht, h⟩ := except_bind_eq_ok.mp h
    obtain ⟨t, ht, -⟩ := except_bind_eq_ok.mp ht
    obtain rfl : _ = next := congrArg Prod.snd (Except.ok.inj h)
    obtain ⟨hmem, rfl⟩ := Catalog.table_eq_ok ht
    exact .addGroup hmem
  | install id p groups =>
    refine cases_of_publish rfl fun _ next h => ?_
    obtain ⟨_, hnext, h⟩ := except_bind_eq_ok.mp h
    obtain ⟨-, rfl⟩ := Prod.mk.inj (Except.ok.inj h)
    obtain ⟨hne, hcolumn, hgroups, rfl⟩ := Catalog.withPartitioning_eq_ok hnext
    exact .install hne hcolumn hgroups
  | addPlacement s col g =>
    refine cases_of_publish rfl fun _ next h => ?_
    obtain ⟨_, hnext, h⟩ := except_bind_eq_ok.mp h
    obtain ⟨-, rfl⟩ := Prod.mk.inj (Except.ok.inj h)
    obtain ⟨⟨st, hst, rfl⟩, ⟨x, hx, entry, hentry, rfl, rfl, htable⟩, rfl⟩ :=
      Catalog.withPlacement_eq_ok hnext
    exact .addPlacement hst hx hentry htable
  | setNames s col schema table name =>
    refine cases_of_publish rfl fun _ next h => ?_
    obtain ⟨_, hnext, h⟩ := except_bind_eq_ok.mp h
    obtain ⟨-, rfl⟩ := Prod.mk.inj (Except.ok.inj h)
    obtain ⟨_, -, hnext⟩ := except_bind_eq_ok.mp hnext
    obtain rfl := Except.ok.inj hnext
    exact .setNames
  | deleteColumn s col =>
    refine cases_of_publish rfl fun _ next h => ?_
    obtain ⟨-, rfl⟩ := Prod.mk.inj (Except.ok.inj h)
    exact .deleteColumn
  | deleteData s id =>
    refine cases_of_publish rfl fun _ next h => ?_
    obtain ⟨t, ht, h⟩ := except_bind_eq_ok.mp h
    obtain ⟨-, rfl⟩ := Prod.mk.inj (Except.ok.inj h)
    obtain ⟨hmem, rfl⟩ := Catalog.table_eq_ok ht
    exact .deleteData hmem
  | setRows id rows =>
    refine cases_of_publish rfl fun _ next h => ?_
    obtain ⟨_, -, h⟩ := except_bind_eq_ok.mp h
    obtain ⟨_, -, h⟩ := except_bind_eq_ok.mp h
    obtain ⟨-, rfl⟩ := Prod.mk.inj (Except.ok.inj h)
    exact .setRows

theorem reachable_after (h : c.Reachable) (x : CatalogCall) : (x.after c).Reachable := by
  cases x with
  | addStore name b => exact .addStore name b h
  | createTable d => exact .createTable d h
  | addGroup id name qualifiers unbound => exact .addGroup id name qualifiers unbound h
  | install id p groups => exact .install id p groups h
  | addPlacement s col g => exact .addPlacement s col g h
  | setNames s col schema table name => exact .setNames s col schema table name h
  | deleteColumn s col => exact .deleteColumn s col h
  | deleteData s id => exact .deleteData s id h
  | setRows id rows => exact .setRows id rows h

/-! ### Runs -/

theorem reachable_run (h : c.Reachable) (calls : List CatalogCall) : (run calls c).Reachable := by
  induction calls generalizing c with
  | nil => exact h
  | cons x rest ih => exact ih (reachable_after h x)

end CatalogCall

/-- What the empty catalog has and every write keeps holds of the reachable states. -/
theorem Catalog.Reachable.writes_induction {P : Catalog → Prop} (hempty : P {})
    (hwrites : ∀ {c c' : Catalog} {x : CatalogCall}, c.Reachable → c'.Reachable → P c →
      x.Writes c c' → P c') {c : Catalog} (h : c.Reachable) : P c := by
  have hcall {c : Catalog} (hc : c.Reachable) (ih : P c) (x : CatalogCall) : P (x.after c) := by
    rcases x.after_cases c with hsame | hwrite
    · rw [hsame]
      exact ih
    · exact hwrites hc (CatalogCall.reachable_after hc x) ih hwrite
  induction h with
  | empty => exact hempty
  | addStore name b hc ih => exact hcall hc ih (.addStore name b)
  | createTable d hc ih => exact hcall hc ih (.createTable d)
  | addGroup id name qualifiers unbound hc ih =>
    exact hcall hc ih (.addGroup id name qualifiers unbound)
  | install id p groups hc ih => exact hcall hc ih (.install id p groups)
  | addPlacement s col g hc ih => exact hcall hc ih (.addPlacement s col g)
  | setNames s col schema table name hc ih => exact hcall hc ih (.setNames s col schema table name)
  | deleteColumn s col hc ih => exact hcall hc ih (.deleteColumn s col)
  | deleteData s id hc ih => exact hcall hc ih (.deleteData s id)
  | setRows id rows hc ih => exact hcall hc ih (.setRows id rows)

end Polystore
