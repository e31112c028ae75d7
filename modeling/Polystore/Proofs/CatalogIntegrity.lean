import Mathlib.Data.List.Nodup
import Polystore.Proofs.CatalogCalls

/-
  Polystore/Proofs/CatalogIntegrity.lean
  ======================================
  **The catalog stays referentially intact.**  After any run of calls from the
  empty catalog no identifier and no name is used twice, what a table refers to
  exists and belongs to it (`Describes`), and what a placement refers to exists
  and fits together (`Admits`).

  The invariant is kept write by write.  Most writes touch one list, so that a
  table or a placement is as well off after them as before (`Describes.mono`,
  `Admits.mono`).  Creating a table numbers the new entries in the order of one
  counter, and installing a partition function takes away groups of its own table
  only, together with their placements.
-/

namespace Polystore

namespace Catalog

variable {c c' : Catalog}

/-! ### Identifiers -/

/-- Numbers that were given out once each, up to the last one. -/
structure Issued (last : Nat) (ids : List Nat) : Prop where
  nodup : ids.Nodup
  le_last : ∀ n ∈ ids, n ≤ last

theorem Issued.sublist {last : Nat} {ids ids' : List Nat} (h : Issued last ids)
    (hsub : ids'.Sublist ids) : Issued last ids' where
  nodup := h.nodup.sublist hsub
  le_last n hn := h.le_last n (hsub.subset hn)

/-- The next numbers join the ones in use, in whatever place. -/
theorem Issued.extend {last : Nat} {ids ids' : List Nat} (h : Issued last ids) (count : Nat)
    (hperm : ids'.Perm (List.range' (last + 1) count ++ ids)) : Issued (last + count) ids' where
  nodup := by
    rw [hperm.nodup_iff, List.nodup_append]
    refine ⟨List.nodup_range', h.nodup, ?_⟩
    intro n hn m hm hnm
    have hnew : last + 1 ≤ n := (List.mem_range'_1.mp hn).1
    have hold : m ≤ last := h.le_last m hm
    omega
  le_last n hn := by
    rcases List.mem_append.mp (hperm.mem_iff.mp hn) with hn | hn
    · have hlt : n < last + 1 + count := (List.mem_range'_1.mp hn).2
      omega
    · have hold : n ≤ last := h.le_last n hn
      omega

/-- The identifiers of all entries. -/
def identifiers (c : Catalog) : List Nat :=
  c.stores.map (·.id.n) ++ c.tables.map (·.id.n) ++ c.columns.map (·.id.n) ++ c.groups.map (·.id.n)

/-- The columns of a new table take the numbers after the table's. -/
theorem columnsFor_identifiers (d : TableDef) (c : Catalog) :
    (columnsFor d c).map (·.id.n) = List.range' (c.lastId + 2) d.columns.length := by
  apply List.ext_getElem
  · simp [columnsFor]
  · intro i h₁ h₂
    simp [columnsFor]

theorem created_identifiers (d : TableDef) (partitionKey clusteringKey : List ColumnId)
    (c : Catalog) : (created d partitionKey clusteringKey c).identifiers.Perm
      (List.range' (c.lastId + 1) (d.columns.length + 2) ++ c.identifiers) := by
  have hlength : (columnsFor d c).length = d.columns.length := List.length_mapIdx
  have hrange : List.range' (c.lastId + 1) (d.columns.length + 2) =
      (c.lastId + 1) :: (List.range' (c.lastId + 2) d.columns.length ++
        [c.lastId + 2 + d.columns.length]) := by
    rw [List.range'_succ, List.range'_1_concat]
  rw [hrange, ← columnsFor_identifiers, List.perm_iff_count]
  intro n
  have hlast : c.lastId + 1 + d.columns.length + 1 = c.lastId + 2 + d.columns.length := by omega
  simp only [identifiers, created, tableFor, List.map_append, List.map_cons, List.map_nil,
    List.count_append, List.count_cons, List.count_nil, hlength, hlast]
  omega

/-! ### Tables and placements -/

/-- What a table lists exists and belongs to it, the columns in their places.  A
    table without a partition function has one group. -/
structure Describes (c : Catalog) (t : Table) : Prop where
  columns : ∀ i x, t.columns[i]? = some x →
    ∃ entry ∈ c.columns, entry.id = x ∧ entry.table = t.id ∧ entry.position = i
  keys : t.primaryKey ⊆ t.columns
  groups : ∀ g ∈ t.groups, ∃ entry ∈ c.groups, entry.id = g ∧ entry.table = t.id
  single : t.partitioning = none → t.groups.length = 1
  partitioned : ∀ p, t.partitioning = some p → p.column ∈ t.columns

theorem Describes.mono {t : Table} (h : c.Describes t) (hcolumns : c.columns ⊆ c'.columns)
    (hgroups : ∀ g ∈ c.groups, g.table = t.id → g ∈ c'.groups) : c'.Describes t :=
  { h with
    columns := by
      intro i x hx
      obtain ⟨entry, hentry, hfits⟩ := h.columns i x hx
      exact ⟨entry, hcolumns hentry, hfits⟩
    groups := by
      intro g hg
      obtain ⟨entry, hentry, hid, htable⟩ := h.groups g hg
      exact ⟨entry, hgroups entry hentry htable, hid, htable⟩ }

/-- What a placement refers to exists, its column and its group are of one table,
    and the store has a location for the column. -/
structure Admits (c : Catalog) (p : Placement) : Prop where
  store : ∃ s ∈ c.stores, s.id = p.store
  ends : ∃ x ∈ c.columns, ∃ g ∈ c.groups, x.id = p.column ∧ g.id = p.group ∧ x.table = g.table
  located : (c.location? p.store p.column).isSome = true

/-- The ends of a placement are known for every reachable state already. -/
theorem Admits.mono {p : Placement} (h : c.Admits p) (hc' : c'.Linked) (hp : p ∈ c'.placements)
    (hstores : c.stores ⊆ c'.stores)
    (hlocated : (c.location? p.store p.column).isSome = true →
      (c'.location? p.store p.column).isSome = true) : c'.Admits p where
  store := by
    obtain ⟨s, hs, hid⟩ := h.store
    exact ⟨s, hstores hs, hid⟩
  ends := hc'.placed p hp
  located := hlocated h.located

/-! ### Intact catalogs -/

structure Intact (c : Catalog) : Prop where
  identifiers : Issued c.lastId c.identifiers
  storeNames : (c.stores.map (·.name)).Nodup
  tableNames : (c.tables.map fun t => (t.space, t.name)).Nodup
  columnNames : (c.columns.map fun x => (x.table.n, x.name)).Nodup
  tables : ∀ t ∈ c.tables, c.Describes t
  placements : ∀ p ∈ c.placements, c.Admits p

namespace Intact

theorem empty : Intact {} where
  identifiers := ⟨by simp [Catalog.identifiers], by simp [Catalog.identifiers]⟩
  storeNames := by simp
  tableNames := by simp
  columnNames := by simp
  tables := by simp
  placements := by simp

/-- Changes of placements and locations only. -/
theorem placing (h : c.Intact) (hids : c'.lastId = c.lastId) (hstores : c'.stores = c.stores)
    (htables : c'.tables = c.tables) (hcolumns : c'.columns = c.columns)
    (hgroups : c'.groups = c.groups) (hplaced : ∀ p ∈ c'.placements, c'.Admits p) :
    c'.Intact where
  identifiers := by
    rw [Catalog.identifiers, hids, hstores, htables, hcolumns, hgroups]
    exact h.identifiers
  storeNames := hstores ▸ h.storeNames
  tableNames := htables ▸ h.tableNames
  columnNames := hcolumns ▸ h.columnNames
  tables := by
    intro t ht
    refine (h.tables t (htables ▸ ht)).mono ?_ ?_
    · rw [hcolumns]
      exact List.Subset.refl _
    · intro g hg _
      exact hgroups ▸ hg
  placements := hplaced

/-- Changes of tables' entries that keep what identifies them. -/
theorem mapTable_map {β : Type} {id : TableId} {f : Table → Table} {g : Table → β}
    (hg : ∀ t, g (f t) = g t) : (Catalog.mapTable id f c).tables.map g = c.tables.map g := by
  rw [Catalog.mapTable, List.map_map]
  apply List.map_congr_left
  intro t _
  by_cases ht : t.id = id <;> simp [ht, hg]

theorem addStore (h : c.Intact) {name : String} {b : Backend} (hnew : ∀ s ∈ c.stores, s.name ≠ name)
    (hc' : Linked { c with
      version := c.version + 1
      lastId := c.lastId + 1
      stores := c.stores ++ [⟨⟨c.lastId + 1⟩, name, b⟩] }) :
    Intact { c with
      version := c.version + 1
      lastId := c.lastId + 1
      stores := c.stores ++ [⟨⟨c.lastId + 1⟩, name, b⟩] } where
  identifiers := by
    refine h.identifiers.extend 1 ?_
    rw [List.perm_iff_count]
    intro n
    simp only [Catalog.identifiers, List.range'_one, List.map_append, List.map_cons, List.map_nil,
      List.count_append, List.count_cons, List.count_nil]
    omega
  storeNames := by
    rw [List.map_append, List.nodup_append]
    refine ⟨h.storeNames, by simp, ?_⟩
    intro a ha b hb hab
    obtain ⟨s, hs, rfl⟩ := List.mem_map.mp ha
    obtain rfl := List.mem_singleton.mp hb
    exact hnew s hs hab
  tableNames := h.tableNames
  columnNames := h.columnNames
  tables t ht := (h.tables t ht).mono (List.Subset.refl _) fun _ hg _ => hg
  placements p hp :=
    (h.placements p hp).mono hc' hp (List.subset_append_left _ _) fun hlocated => hlocated

theorem describes_tableFor {d : TableDef} {partitionKey clusteringKey : List ColumnId}
    (hpartition : partitionKey ⊆ (columnsFor d c).map (·.id))
    (hclustering : clusteringKey ⊆ (columnsFor d c).map (·.id)) :
    (created d partitionKey clusteringKey c).Describes
      (tableFor d partitionKey clusteringKey c) := by
  constructor
  · intro i x hx
    rw [tableFor, List.getElem?_map, Option.map_eq_some_iff] at hx
    obtain ⟨entry, hentry, rfl⟩ := hx
    have hmem : entry ∈ columnsFor d c := List.mem_of_getElem? hentry
    rw [columnsFor, List.getElem?_mapIdx, Option.map_eq_some_iff] at hentry
    obtain ⟨column, -, rfl⟩ := hentry
    exact ⟨_, List.mem_append_right _ hmem, rfl, rfl, rfl⟩
  · intro x hx
    rcases List.mem_append.mp hx with hx | hx
    · exact hpartition hx
    · exact hclustering hx
  · intro g hg
    obtain rfl := List.mem_singleton.mp hg
    exact ⟨_, List.mem_append_right _ (List.mem_singleton_self _), rfl, rfl⟩
  · intro _
    rfl
  · intro p hp
    cases hp

theorem createTable (h : c.Intact) (hc : c.Linked) {d : TableDef}
    {partitionKey clusteringKey : List ColumnId}
    (hnew : ∀ t ∈ c.tables, t.space = d.space → t.name ≠ d.name)
    (hnames : (d.columns.map (·.name)).Nodup)
    (hpartition : partitionKey ⊆ (columnsFor d c).map (·.id))
    (hclustering : clusteringKey ⊆ (columnsFor d c).map (·.id))
    (hc' : (created d partitionKey clusteringKey c).Linked) :
    (created d partitionKey clusteringKey c).Intact where
  identifiers := by
    have hlast : (created d partitionKey clusteringKey c).lastId =
        c.lastId + (d.columns.length + 2) := by
      have hlength : (columnsFor d c).length = d.columns.length := List.length_mapIdx
      simp only [created, hlength]
      omega
    rw [hlast]
    exact h.identifiers.extend _ (created_identifiers d partitionKey clusteringKey c)
  storeNames := h.storeNames
  tableNames := by
    rw [created, List.map_append, List.nodup_append]
    refine ⟨h.tableNames, by simp, ?_⟩
    intro a ha b hb hab
    obtain ⟨t, ht, rfl⟩ := List.mem_map.mp ha
    obtain rfl := List.mem_singleton.mp hb
    obtain ⟨hspace, hname⟩ := Prod.mk.inj hab
    exact hnew t ht hspace hname
  columnNames := by
    rw [created, List.map_append, List.nodup_append]
    refine ⟨h.columnNames, ?_, ?_⟩
    · have hpairs : (columnsFor d c).map (fun x => (x.table.n, x.name)) =
          (d.columns.map (·.name)).map (Prod.mk (c.lastId + 1)) := by
        apply List.ext_getElem
        · simp [columnsFor]
        · intro i h₁ h₂
          simp [columnsFor]
      rw [hpairs]
      exact hnames.map (Prod.mk_right_injective _)
    · intro a ha b hb hab
      obtain ⟨x, hx, rfl⟩ := List.mem_map.mp ha
      obtain ⟨y, hy, rfl⟩ := List.mem_map.mp hb
      obtain ⟨i, hi, rfl⟩ := List.mem_mapIdx.mp hy
      obtain ⟨t, ht, htable, -⟩ := hc.listed x hx
      have hle : t.id.n ≤ c.lastId := hc.tables.le_last t ht
      have heq : x.table.n = c.lastId + 1 := (Prod.mk.inj hab).1
      rw [htable] at hle
      omega
  tables := by
    intro t ht
    rcases List.mem_append.mp ht with ht | ht
    · exact (h.tables t ht).mono (List.subset_append_left _ _) fun g hg _ =>
        List.mem_append_left _ hg
    · obtain rfl := List.mem_singleton.mp ht
      exact describes_tableFor hpartition hclustering
  placements p hp :=
    (h.placements p hp).mono hc' hp (List.Subset.refl _) fun hlocated => hlocated

theorem addGroup (h : c.Intact) {t : Table} {name : String} {qualifiers : List String}
    {unbound : Bool} (hc' : (withGroup t.id name qualifiers unbound c).2.Linked) :
    (withGroup t.id name qualifiers unbound c).2.Intact where
  identifiers := by
    refine h.identifiers.extend 1 ?_
    rw [List.perm_iff_count]
    intro n
    simp only [Catalog.identifiers, withGroup, List.range'_one, List.map_append, List.map_cons,
      List.map_nil, List.count_append, List.count_cons, List.count_nil]
    omega
  storeNames := h.storeNames
  tableNames := h.tableNames
  columnNames := h.columnNames
  tables t ht := (h.tables t ht).mono (List.Subset.refl _) fun g hg _ => List.mem_append_left _ hg
  placements p hp :=
    (h.placements p hp).mono hc' hp (List.Subset.refl _) fun hlocated => hlocated

theorem install (h : c.Intact) (hc : c.Linked) {id : TableId} {p : Partitioning}
    {groups : List PartitionId} (hcolumn : ∃ x ∈ c.columns, x.id = p.column ∧ x.table = id)
    (hgroups : ∀ g ∈ groups, ∃ entry ∈ c.groups, entry.id = g ∧ entry.table = id)
    (hc' : (installed id p groups c).Linked) : (installed id p groups c).Intact where
  identifiers := by
    refine h.identifiers.sublist ?_
    have hids : (installed id p groups c).tables.map (·.id.n) = c.tables.map (·.id.n) :=
      mapTable_map fun _ => rfl
    rw [Catalog.identifiers, hids]
    exact (List.Sublist.refl _).append (List.filter_sublist.map _)
  storeNames := h.storeNames
  tableNames := by
    have hnames : (installed id p groups c).tables.map (fun t => (t.space, t.name)) =
        c.tables.map fun t => (t.space, t.name) := mapTable_map fun _ => rfl
    rw [hnames]
    exact h.tableNames
  columnNames := h.columnNames
  tables := by
    intro t ht
    obtain ⟨u, hu, rfl⟩ := List.mem_map.mp ht
    by_cases hid : u.id = id
    · -- the table itself, which lists the groups that stay
      subst hid
      rw [if_pos rfl]
      refine { h.tables u hu with groups := ?_, single := ?_, partitioned := ?_ }
      · intro g hg
        obtain ⟨entry, hentry, rfl, htable⟩ := hgroups g hg
        have hlisted : groups.contains entry.id = true := List.contains_iff_mem.mpr hg
        refine ⟨entry, List.mem_filter.mpr ⟨hentry, ?_⟩, rfl, htable⟩
        rw [hlisted, Bool.or_true]
      · intro hnone
        cases hnone
      · intro q hq
        obtain rfl := Option.some.inj hq
        obtain ⟨x, hx, hxid, htable⟩ := hcolumn
        obtain ⟨v, hv, hvid, hlisted⟩ := hc.listed x hx
        obtain rfl : v = u := hc.table_ext hv hu (hvid.trans htable)
        exact hxid ▸ hlisted
    · rw [if_neg hid]
      refine (h.tables u hu).mono (List.Subset.refl _) ?_
      intro g hg htable
      exact List.mem_filter.mpr ⟨hg, by simp [htable, hid]⟩
  placements q hq :=
    (h.placements q (List.mem_filter.mp hq).1).mono hc' hq (List.Subset.refl _)
      fun hlocated => hlocated

theorem addPlacement (h : c.Intact) {st : Store} {x : Column} {g : PartitionGroup}
    (hst : st ∈ c.stores) (hc' : Linked { c with
      version := c.version + 1
      placements := insertPlacement ⟨g.id, st.id, x.id⟩ c.placements
      locations := insertLocation ⟨st.id, x.id, none, none, none⟩ c.locations }) :
    Intact { c with
      version := c.version + 1
      placements := insertPlacement ⟨g.id, st.id, x.id⟩ c.placements
      locations := insertLocation ⟨st.id, x.id, none, none, none⟩ c.locations } := by
  refine h.placing rfl rfl rfl rfl rfl ?_
  intro p hp
  rcases mem_insertPlacement.mp hp with rfl | hold
  · refine ⟨⟨st, hst, rfl⟩, hc'.placed _ hp, isSome_location?.mpr ?_⟩
    exact exists_insertLocation ⟨st.id, x.id, none, none, none⟩ c.locations
  · refine (h.placements p hold).mono hc' hp (List.Subset.refl _) ?_
    intro hlocated
    obtain ⟨l, hl, hkey⟩ := isSome_location?.mp hlocated
    exact isSome_location?.mpr ⟨l, subset_insertLocation _ _ hl, hkey⟩

theorem setNames (h : c.Intact) {s : StoreId} {col : ColumnId} {schema table name : String}
    (hc' : Linked { c with
      version := c.version + 1
      locations := c.locations.map fun l =>
        if l.store = s ∧ l.column = col then ⟨s, col, some schema, some table, some name⟩
        else l }) :
    Intact { c with
      version := c.version + 1
      locations := c.locations.map fun l =>
        if l.store = s ∧ l.column = col then ⟨s, col, some schema, some table, some name⟩
        else l } := by
  refine h.placing rfl rfl rfl rfl rfl ?_
  intro p hp
  refine (h.placements p hp).mono hc' hp (List.Subset.refl _) ?_
  intro hlocated
  obtain ⟨l, hl, hstore, hcolumn⟩ := isSome_location?.mp hlocated
  refine isSome_location?.mpr ⟨_, List.mem_map_of_mem hl, ?_⟩
  by_cases hkey : l.store = s ∧ l.column = col
  · rw [if_pos hkey, ← hkey.1, ← hkey.2]
    exact ⟨hstore, hcolumn⟩
  · rw [if_neg hkey]
    exact ⟨hstore, hcolumn⟩

theorem withoutColumns (h : c.Intact) {s : StoreId} {columns : List ColumnId}
    (hc' : (Catalog.withoutColumns s columns c).Linked) :
    (Catalog.withoutColumns s columns c).Intact := by
  refine h.placing rfl rfl rfl rfl rfl ?_
  intro p hp
  obtain ⟨hold, hkept⟩ := List.mem_filter.mp hp
  refine (h.placements p hold).mono hc' hp (List.Subset.refl _) ?_
  intro hlocated
  obtain ⟨l, hl, hstore, hcolumn⟩ := isSome_location?.mp hlocated
  refine isSome_location?.mpr ⟨l, List.mem_filter.mpr ⟨hl, ?_⟩, hstore, hcolumn⟩
  rw [hstore, hcolumn]
  exact hkept

theorem setRows (h : c.Intact) {id : TableId} {rows : Float}
    (hc' : (Catalog.mapTable id (fun t => { t with rows := some rows }) c).Linked) :
    (Catalog.mapTable id (fun t => { t with rows := some rows }) c).Intact where
  identifiers := by
    have hids : (Catalog.mapTable id (fun t => { t with rows := some rows }) c).tables.map
        (·.id.n) = c.tables.map (·.id.n) := mapTable_map fun _ => rfl
    rw [Catalog.identifiers, hids]
    exact h.identifiers
  storeNames := h.storeNames
  tableNames := by
    have hnames : (Catalog.mapTable id (fun t => { t with rows := some rows }) c).tables.map
        (fun t => (t.space, t.name)) = c.tables.map fun t => (t.space, t.name) :=
      mapTable_map fun _ => rfl
    rw [hnames]
    exact h.tableNames
  columnNames := h.columnNames
  tables := by
    intro t ht
    obtain ⟨u, hu, rfl⟩ := List.mem_map.mp ht
    have hdescribes : (Catalog.mapTable id (fun t => { t with rows := some rows }) c).Describes u :=
      (h.tables u hu).mono (List.Subset.refl _) fun g hg _ => hg
    by_cases hid : u.id = id
    · rw [if_pos hid]
      exact { hdescribes with }
    · rw [if_neg hid]
      exact hdescribes
  placements p hp :=
    (h.placements p hp).mono hc' hp (List.Subset.refl _) fun hlocated => hlocated

/-- Versions do not matter. -/
theorem versioned (h : c.Intact) (v : Nat) : Intact { c with version := v } :=
  { h with
    tables := fun t ht => { h.tables t ht with }
    placements := fun p hp => { h.placements p hp with } }

theorem writes {x : CatalogCall} (h : c.Intact) (hc : c.Linked) (hc' : c'.Linked)
    (hwrites : x.Writes c c') : c'.Intact := by
  -- what a write computes is linked as well, for it is published with a new version only
  have hcomputed {next : Catalog} {v : Nat} (hnext : c' = { next with version := v }) :
      next.Linked := by
    subst hnext
    exact hc'.unplaced rfl rfl rfl (List.Subset.refl _) (Nat.le_refl _)
  cases hwrites with
  | addStore hnew => exact h.addStore hnew hc'
  | createTable hnew hnames hpartition hclustering =>
    exact (h.createTable hc hnew hnames hpartition hclustering (hcomputed rfl)).versioned _
  | addGroup ht => exact (h.addGroup (hcomputed rfl)).versioned _
  | install hne hcolumn hgroups =>
    exact (h.install hc hcolumn hgroups (hcomputed rfl)).versioned _
  | addPlacement hst hx hg htable => exact h.addPlacement hst hc'
  | setNames => exact h.setNames hc'
  | deleteColumn => exact (h.withoutColumns (hcomputed rfl)).versioned _
  | deleteData ht => exact (h.withoutColumns (hcomputed rfl)).versioned _
  | setRows => exact (h.setRows (hcomputed rfl)).versioned _

end Intact

theorem Reachable.intact (h : c.Reachable) : c.Intact :=
  h.writes_induction .empty fun hc hc' hintact hwrites =>
    hintact.writes hc.linked hc'.linked hwrites

/-- After any calls, refused or not, the catalog is intact. -/
theorem run_intact (calls : List CatalogCall) : (CatalogCall.run calls {}).Intact :=
  (CatalogCall.reachable_run .empty calls).intact

end Catalog

end Polystore
